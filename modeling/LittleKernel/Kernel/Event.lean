/-
# Events

`kernel/event.c`: `event_init`, `event_wait_timeout`, `event_signal` and
`event_unsignal`, interleaved at thread-lock granularity by any number of
threads, with the timer of a waiter firing at any moment.

With `EVENT_FLAG_AUTOUNSIGNAL` a signal is one permit: it goes to the head of
the wait queue, or stays in `e->signaled` when nobody is queued, where a wait or
`event_unsignal` takes it.  So a signal is never kept beside a queued thread
(`EventOk.quiet`), and the waits that succeeded, the threads a signal has woken
and a kept signal are together at most the signals there were
(`EventOk.balance`).  `event_signal_accounting` reads both off every run.
-/

import LittleKernel.Kernel.WaitQueue
import LittleKernel.Lib.Machine

namespace LittleKernel
namespace Kernel

open Machine

/-- `EVENT_FLAG_AUTOUNSIGNAL` (`include/kernel/event.h`). -/
def eventFlagAutounsignal : ℕ := 1

/-- `event_t` and the threads that use it.  `signals` and `taken` count the calls
of `event_signal` and the waits that returned `NO_ERROR`; no function of the
kernel reads them. -/
structure Event where
  signaled : Bool
  flags : ℕ
  wait : Waits
  signals : ℕ
  taken : ℕ

/-- `event_init`. -/
def Event.init (initial : Bool) (flags : ℕ) : Event := ⟨initial, flags, Waits.init, 0, 0⟩

/-- `e->flags & EVENT_FLAG_AUTOUNSIGNAL`. -/
def Event.autounsignal (e : Event) : Prop := e.flags &&& eventFlagAutounsignal ≠ 0

instance (e : Event) : Decidable e.autounsignal :=
  inferInstanceAs (Decidable (e.flags &&& eventFlagAutounsignal ≠ 0))

/-- The return of a wait with `ret`. -/
def Event.return (e : Event) (ret : Status) : Event :=
  if ret = .noError then { e with taken := e.taken + 1 } else e

/-- `event_wait_timeout` by `t`, up to the return or to the `thread_resched` in
`wait_queue_block`. -/
def eventWaitTimeout (e : Event) (t timeout : ℕ) : Event :=
  if e.signaled then
    (if e.autounsignal then { e with signaled := false } else e).return .noError
  else
    match waitQueueBlock e.wait t timeout with
    | none => e.return .timedOut
    | some w => { e with wait := w }

/-- `event_wait_timeout` by `t` from the return of that `thread_resched` on. -/
def eventResume (e : Event) (t : ℕ) : Event :=
  { e with wait := (waitQueueResume e.wait t).1 }.return (waitQueueResume e.wait t).2

/-- The loop of `wait_queue_wake_all`, `n` being the length of the list. -/
def releaseAll : ℕ → Waits → Status → Waits
  | 0, w, _ => w
  | n + 1, w, err => releaseAll n (waitQueueWakeOne w err).1 err

/-- `event_signal`; where it reschedules the caller is only put off. -/
def eventSignal (e : Event) : Event :=
  let e := { e with signals := e.signals + 1 }
  if e.signaled then e
  else if e.autounsignal then
    if (waitQueueWakeOne e.wait .noError).2 ≤ 0 then
      { e with wait := (waitQueueWakeOne e.wait .noError).1, signaled := true }
    else { e with wait := (waitQueueWakeOne e.wait .noError).1 }
  else { e with signaled := true, wait := releaseAll e.wait.list.length e.wait .noError }

/-- `event_unsignal`, one store outside the lock. -/
def eventUnsignal (e : Event) : Event := { e with signaled := false }

inductive EventAct where
  | signal
  | unsignal
  | wait (t timeout : ℕ)
  | timer (t : ℕ)
  | resume (t : ℕ)
  deriving DecidableEq

/-- One step: a wait by a thread outside the wait code, a signal or an unsignal by
anybody, an armed timer firing, or the scheduler running a woken thread. -/
def eventStep (e : Event) : EventAct → Option Event
  | .signal => some (eventSignal e)
  | .unsignal => some (eventUnsignal e)
  | .wait t timeout =>
    if (e.wait.thr t).state = .running then some (eventWaitTimeout e t timeout) else none
  | .timer t =>
    if (e.wait.thr t).timer then some { e with wait := waitQueueTimeoutHandler e.wait t }
    else none
  | .resume t => if (e.wait.thr t).state = .ready then some (eventResume e t) else none

/-- `t` was woken by a signal and has not run since. -/
def Event.Released (e : Event) (t : ℕ) : Prop :=
  (e.wait.thr t).state = .ready ∧ (e.wait.thr t).waitQueueBlockRet = .noError

/-! ### The invariant -/

/-- What holds between any two steps of an auto-unsignal event that started as
`initial`, `G` being the threads a signal has woken, as long as they have not run. -/
structure EventOk (initial : Bool) (e : Event) (G : Finset ℕ) : Prop where
  auto : e.autounsignal
  wait : ∃ P, e.wait.Ok P
  mem_released : ∀ t, t ∈ G ↔ e.Released t
  quiet : e.signaled → e.wait.list = []
  balance : e.taken + G.card + e.signaled.toNat ≤ initial.toNat + e.signals

variable {initial : Bool} {flags : ℕ} {e e' : Event} {G : Finset ℕ} {t : ℕ}

theorem eventOk_init (hf : flags &&& eventFlagAutounsignal ≠ 0) :
    EventOk initial (Event.init initial flags) ∅ where
  auto := hf
  wait := ⟨∅, Waits.ok_init⟩
  mem_released t := by simp [Event.Released, Event.init, Waits.init]
  quiet _ := rfl
  balance := by simp [Event.init]

section

variable (h : EventOk initial e G)
include h

/-- **A step concerns one thread.** -/
theorem EventOk.frame {G' : Finset ℕ} (t : ℕ)
    (hflags : e'.flags = e.flags) (hwait : ∃ P, e'.wait.Ok P)
    (hthr : ∀ u, u ≠ t → e'.wait.thr u = e.wait.thr u) (hG : ∀ u, u ≠ t → (u ∈ G' ↔ u ∈ G))
    (htG : t ∈ G' ↔ e'.Released t) (hquiet : e'.signaled → e'.wait.list = [])
    (hbal : e'.taken + G'.card + e'.signaled.toNat ≤ initial.toNat + e'.signals) :
    EventOk initial e' G' := by
  refine ⟨?_, hwait, fun u => ?_, hquiet, hbal⟩
  · have hauto := h.auto
    rwa [Event.autounsignal, ← hflags] at hauto
  · rcases eq_or_ne u t with rfl | hut
    · exact htG
    · rw [hG u hut, h.mem_released, Event.Released, Event.Released, hthr u hut]

theorem EventOk.wait_timeout (timeout : ℕ)
    (ht : (e.wait.thr t).state = .running) : EventOk initial (eventWaitTimeout e t timeout) G := by
  have hb := h.balance
  unfold eventWaitTimeout
  split
  · rename_i hsig
    rw [if_pos h.auto, Event.return, if_pos rfl]
    refine ⟨h.auto, h.wait, h.mem_released, fun hf => absurd hf (by simp), ?_⟩
    simp only [hsig, Bool.toNat_true, Bool.toNat_false] at hb ⊢
    omega
  · rename_i hsig
    obtain ⟨P, hP⟩ := h.wait
    rcases em (timeout = 0) with h0 | h0
    · simpa [waitQueueBlock, h0, Event.return] using h
    · obtain ⟨w, hw, hok, -, hblk, hthr⟩ := hP.block ht h0
      rw [hw]
      refine h.frame t rfl ⟨P, hok⟩ hthr (fun _ _ => .rfl) ?_ (fun hs => absurd hs hsig) hb
      simp [h.mem_released, Event.Released, hblk, ht]

/-- **A signal beside queued threads** releases the first of them and no other. -/
theorem EventOk.signal_cons {l : List ℕ} (hl : e.wait.list = t :: l) :
    (eventSignal e).wait.list = l ∧ (eventSignal e).signaled = false ∧
      (eventSignal e).Released t ∧ t ∉ G ∧ (∃ P, (eventSignal e).wait.Ok P) ∧
      (∀ u, u ≠ t → (eventSignal e).wait.thr u = e.wait.thr u) ∧
      (eventSignal e).flags = e.flags ∧ (eventSignal e).taken = e.taken ∧
      (eventSignal e).signals = e.signals + 1 := by
  obtain ⟨P, hP⟩ := h.wait
  obtain ⟨hok, hlist, -, hone, hthr, hother⟩ := hP.wakeOne hl .noError
  have hsig : e.signaled = false := by
    by_contra hs
    have := h.quiet (by simpa using hs)
    simp [hl] at this
  have hblk : (e.wait.thr t).state = .blocked := (hP.mem_list t).1 (by simp [hl])
  have he : eventSignal e = { e with
      signals := e.signals + 1
      wait := (waitQueueWakeOne e.wait .noError).1 } := by
    have hauto : ({ e with signals := e.signals + 1 } : Event).autounsignal := h.auto
    unfold eventSignal
    simp only [hsig, Bool.false_eq_true, if_false, hone]
    rw [if_pos (by simpa [hsig] using hauto), if_neg (by decide)]
  rw [he]
  refine ⟨hlist, hsig, ?_, ?_, ⟨_, hok⟩, hother, rfl, rfl, rfl⟩
  · simp [Event.Released, hthr]
  · simp [h.mem_released, Event.Released, hblk]

/-- A signal beside an empty queue is kept, once. -/
theorem EventOk.signal_nil (hl : e.wait.list = []) :
    eventSignal e = { e with signals := e.signals + 1, signaled := true } := by
  have hauto : ({ e with signals := e.signals + 1 } : Event).autounsignal := h.auto
  unfold eventSignal
  simp only [waitQueueWakeOne_nil hl]
  split
  · rename_i hs
    rw [hs]
  · rw [if_pos le_rfl]

theorem EventOk.signal : ∃ G', EventOk initial (eventSignal e) G' := by
  have hb := h.balance
  cases hl : e.wait.list with
  | nil =>
    rw [h.signal_nil hl]
    refine ⟨G, h.auto, h.wait, h.mem_released, fun _ => hl, ?_⟩
    simp only [Bool.toNat_true]
    omega
  | cons t l =>
    obtain ⟨-, hsig, hrel, htG, hok, hother, hflags, htaken, hsignals⟩ := h.signal_cons hl
    refine ⟨insert t G, h.frame t hflags hok hother (fun u hu => by simp [hu])
      (by simpa using hrel) (by simp [hsig]) ?_⟩
    rw [htaken, hsignals, hsig, Finset.card_insert_of_notMem htG, Bool.toNat_false]
    omega

theorem EventOk.timer (t : ℕ) :
    EventOk initial { e with wait := waitQueueTimeoutHandler e.wait t } G := by
  obtain ⟨P, hP⟩ := h.wait
  rcases em ((e.wait.thr t).state = .blocked) with hblk | hblk
  · obtain ⟨hok, hlist, -, -, hthr, hother⟩ := hP.timeout hblk
    refine h.frame t rfl ⟨_, hok⟩ hother (fun _ _ => .rfl) ?_ (fun hs => ?_) h.balance
    · simp [h.mem_released, Event.Released, hthr, hblk]
    · simp [hlist, h.quiet hs]
  · obtain ⟨hok, hlist, hthr, hother⟩ := hP.timeout_of_ne hblk
    refine h.frame t rfl ⟨_, hok⟩ hother (fun _ _ => .rfl) ?_ (fun hs => ?_) h.balance
    · simp [h.mem_released, Event.Released, hthr]
    · simp [hlist, h.quiet hs]

theorem EventOk.resume (ht : (e.wait.thr t).state = .ready) :
    EventOk initial (eventResume e t) (G.erase t) := by
  obtain ⟨P, hP⟩ := h.wait
  obtain ⟨hok, hlist, hrun, hother⟩ := hP.resume ht
  have hb := h.balance
  unfold eventResume Event.return
  split
  · rename_i hret
    have htG : t ∈ G := (h.mem_released t).2 ⟨ht, hret⟩
    have hcard := Finset.card_erase_add_one htG
    refine h.frame t rfl ⟨_, hok⟩ hother (fun u hu => by simp [hu])
      (by simp [Event.Released, hrun]) (fun hs => hlist.trans (h.quiet hs)) ?_
    simp only
    omega
  · have hcard : (G.erase t).card ≤ G.card := Finset.card_le_card (Finset.erase_subset t G)
    refine h.frame t rfl ⟨_, hok⟩ hother (fun u hu => by simp [hu])
      (by simp [Event.Released, hrun]) (fun hs => hlist.trans (h.quiet hs)) ?_
    simp only
    omega

theorem EventOk.step {a : EventAct} (hs : eventStep e a = some e') :
    ∃ G', EventOk initial e' G' := by
  cases a with
  | signal =>
    cases hs
    exact h.signal
  | unsignal =>
    cases hs
    have hb := h.balance
    refine ⟨G, h.auto, h.wait, h.mem_released, fun hf => absurd hf (by simp [eventUnsignal]), ?_⟩
    simp only [eventUnsignal, Bool.toNat_false]
    omega
  | wait t timeout =>
    simp only [eventStep, Option.ite_none_right_eq_some, Option.some.injEq] at hs
    obtain ⟨ht, rfl⟩ := hs
    exact ⟨G, h.wait_timeout timeout ht⟩
  | timer t =>
    simp only [eventStep, Option.ite_none_right_eq_some, Option.some.injEq] at hs
    obtain ⟨-, rfl⟩ := hs
    exact ⟨G, h.timer t⟩
  | resume t =>
    simp only [eventStep, Option.ite_none_right_eq_some, Option.some.injEq] at hs
    obtain ⟨ht, rfl⟩ := hs
    exact ⟨G.erase t, h.resume ht⟩

end

/-- **Auto-unsignal accounting.**  After any interleaving of signals, unsignals,
waits and timeouts on an auto-unsignal event, the waits that returned `NO_ERROR`
are at most the initial signal plus the signals; the event is not signalled while
a thread is queued; and a signal with a thread queued takes exactly the first one
off the queue, with `NO_ERROR`, and changes no other thread. -/
theorem event_signal_accounting (initial : Bool) (flags : ℕ)
    (hf : flags &&& eventFlagAutounsignal ≠ 0) (as : List EventAct) (e : Event)
    (h : run eventStep (Event.init initial flags) as = some e) :
    e.taken ≤ initial.toNat + e.signals ∧
      (e.signaled → e.wait.list = [] ∧ ∀ t, (e.wait.thr t).state ≠ .blocked) ∧
      ∀ t l, e.wait.list = t :: l →
        (eventSignal e).wait.list = l ∧ (eventSignal e).signaled = false ∧
          ¬ e.Released t ∧ (eventSignal e).Released t ∧
          ∀ u, u ≠ t → (eventSignal e).wait.thr u = e.wait.thr u := by
  have hstep : ∀ e a e', (∃ G, EventOk initial e G) → eventStep e a = some e' →
      ∃ G, EventOk initial e' G := by
    rintro e a e' ⟨G, hG⟩ hs
    exact hG.step hs
  obtain ⟨G, hG⟩ := run_inv hstep as _ e ⟨∅, eventOk_init hf⟩ h
  obtain ⟨P, hP⟩ := hG.wait
  refine ⟨?_, fun hs => ⟨hG.quiet hs, fun t ht => ?_⟩, fun t l hl => ?_⟩
  · have := hG.balance
    omega
  · have hmem := (hP.mem_list t).2 ht
    simp [hG.quiet hs] at hmem
  · obtain ⟨hlist, hsig, hrel, htG, -, hother, -⟩ := hG.signal_cons hl
    exact ⟨hlist, hsig, fun hr => htG ((hG.mem_released t).2 hr), hrel, hother⟩

/-- Two waiters, one of which times out: the signal goes to the other. -/
theorem event_signal_accounting_two :
    ∃ e, run eventStep (Event.init false eventFlagAutounsignal)
        [.wait 1 10, .wait 2 infiniteTime, .timer 1, .signal, .resume 2, .resume 1] = some e ∧
      e.taken = 1 ∧ e.taken ≤ false.toNat + e.signals :=
  ⟨_, rfl, rfl, (event_signal_accounting false eventFlagAutounsignal (by decide)
    [.wait 1 10, .wait 2 infiniteTime, .timer 1, .signal, .resume 2, .resume 1] _ rfl).1⟩

end Kernel
end LittleKernel
