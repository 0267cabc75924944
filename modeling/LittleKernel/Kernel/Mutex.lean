/-
# Mutexes

`kernel/mutex.c`: `mutex_acquire_timeout` and `mutex_release`, interleaved at
thread-lock granularity by any number of threads, with the timer of a waiter
firing at any moment.

`m->count` counts the holder and everybody who came after it, a waiter that
timed out included until that waiter runs again and backs out
(`MutexOk.count_eq`).  Mutual exclusion follows
(`mutex_mutual_exclusion`): a thread takes the mutex at once only when the
count was zero, and `mutex_release` hands it to one waiter at a time.

Wake-ups can be lost.  A release whose only competitor is a waiter that timed
out and has not run leaves the count positive with nobody to wake, and whoever
comes next queues behind a mutex nobody holds (`mutex_wakeup_lost`).  That is
the only way to lose one (`mutex_noLostWakeup_iff`).
-/

import LittleKernel.Kernel.WaitQueue
import LittleKernel.Lib.Machine

namespace LittleKernel
namespace Kernel

open Machine Function

/-- Where a thread stands towards the mutex, as its own code sees it: `owner`
from a successful return of acquire to the call of release, `timedOut` from an
unsuccessful one to the next acquire. -/
inductive Caller where
  | outside
  | acquiring
  | owner
  | timedOut
  deriving DecidableEq

/-- `mutex_t` and the threads that use it.  `caller` records what the calls
returned and is read by no function of the kernel. -/
structure Mutex where
  holder : Option ℕ
  count : ℤ
  wait : Waits
  caller : ℕ → Caller

/-- `MUTEX_INITIAL_VALUE`. -/
def Mutex.init : Mutex := ⟨none, 0, Waits.init, fun _ => .outside⟩

/-- The end of `mutex_acquire_timeout` once `wait_queue_block` has returned
`ret`: a timeout backs out of the count, any other error leaves everything. -/
def mutexAcquireReturn (m : Mutex) (t : ℕ) (ret : Status) : Mutex :=
  match ret with
  | .noError => { m with holder := some t, caller := update m.caller t .owner }
  | .timedOut => { m with count := m.count - 1, caller := update m.caller t .timedOut }
  | _ => { m with caller := update m.caller t .outside }

/-- `mutex_acquire_timeout` by `t`, up to its return or to the `thread_resched`
in `wait_queue_block`. -/
def mutexAcquireTimeout (m : Mutex) (t timeout : ℕ) : Mutex :=
  let m := { m with count := m.count + 1 }
  if m.count > 1 then
    match waitQueueBlock m.wait t timeout with
    | none => mutexAcquireReturn m t .timedOut
    | some w => { m with wait := w, caller := update m.caller t .acquiring }
  else mutexAcquireReturn m t .noError

/-- `mutex_acquire_timeout` by `t` from the return of that `thread_resched` on. -/
def mutexAcquireResume (m : Mutex) (t : ℕ) : Mutex :=
  mutexAcquireReturn { m with wait := (waitQueueResume m.wait t).1 } t (waitQueueResume m.wait t).2

/-- `mutex_release` by `t`. -/
def mutexRelease (m : Mutex) (t : ℕ) : Mutex :=
  let m := { m with
    holder := none
    count := m.count - 1
    caller := update m.caller t .outside }
  if m.count ≥ 1 then { m with wait := (waitQueueWakeOne m.wait .noError).1 } else m

inductive MutexAct where
  | acquire (t timeout : ℕ)
  | timer (t : ℕ)
  | resume (t : ℕ)
  | release (t : ℕ)
  deriving DecidableEq

/-- One step: a call by a thread outside the wait code, an armed timer firing, or
the scheduler running a woken thread.  Acquiring a mutex one holds and releasing
one that one does not hold are the panics of the two functions. -/
def mutexStep (m : Mutex) : MutexAct → Option Mutex
  | .acquire t timeout =>
    if (m.wait.thr t).state = .running ∧ m.holder ≠ some t then
      some (mutexAcquireTimeout m t timeout)
    else none
  | .timer t =>
    if (m.wait.thr t).timer then some { m with wait := waitQueueTimeoutHandler m.wait t }
    else none
  | .resume t =>
    if (m.wait.thr t).state = .ready then some (mutexAcquireResume m t) else none
  | .release t => if m.holder = some t then some (mutexRelease m t) else none

/-- `t` was woken by `mutex_release` and has yet to run and take the mutex. -/
def Mutex.Granted (m : Mutex) (t : ℕ) : Prop :=
  (m.wait.thr t).state = .ready ∧ (m.wait.thr t).waitQueueBlockRet = .noError

/-! ### The invariant -/

/-- What holds between any two steps, `P` being the threads that were woken or
timed out and have not run since. -/
structure MutexOk (m : Mutex) (P : Finset ℕ) : Prop where
  wait : m.wait.Ok P
  count_eq : m.count = m.wait.list.length + P.card + (if m.holder = none then 0 else 1)
  owner_iff : ∀ t, m.caller t = .owner ↔ m.holder = some t
  acquiring : ∀ t, (m.wait.thr t).state ≠ .running → m.caller t = .acquiring
  ready_ret : ∀ t, (m.wait.thr t).state = .ready →
    (m.wait.thr t).waitQueueBlockRet = .noError ∨ (m.wait.thr t).waitQueueBlockRet = .timedOut
  granted_unique : ∀ t u, m.Granted t → m.Granted u → t = u
  granted_free : ∀ t, m.Granted t → m.holder = none

theorem mutexOk_init : MutexOk Mutex.init ∅ where
  wait := Waits.ok_init
  count_eq := rfl
  owner_iff t := by simp [Mutex.init]
  acquiring t h := absurd rfl h
  ready_ret t h := by simp [Mutex.init, Waits.init] at h
  granted_unique t u h := by simp [Mutex.Granted, Mutex.init, Waits.init] at h
  granted_free t _ := rfl

variable {m m' : Mutex} {P : Finset ℕ} {t : ℕ}

/-- The holder is outside the wait code. -/
theorem MutexOk.holder_running (h : MutexOk m P) (ht : m.holder = some t) :
    (m.wait.thr t).state = .running := by
  by_contra hne
  have h₁ := h.acquiring t hne
  rw [(h.owner_iff t).2 ht] at h₁
  cases h₁

/-- A free mutex with a zero count has no waiter of any kind. -/
theorem MutexOk.idle (h : MutexOk m P) (h0 : ¬ 1 ≤ m.count) :
    m.holder = none ∧ m.wait.list = [] ∧ P = ∅ := by
  have hc := h.count_eq
  split at hc
  · refine ⟨‹_›, List.length_eq_zero_iff.1 (by omega), Finset.card_eq_zero.1 (by omega)⟩
  · omega

/-- The three ways through the first half of `mutex_acquire_timeout`. -/
theorem mutexAcquireTimeout_cases (m : Mutex) (t timeout : ℕ) :
    (¬ 1 ≤ m.count ∧ mutexAcquireTimeout m t timeout
        = { m with
            count := m.count + 1
            holder := some t
            caller := update m.caller t .owner }) ∨
      (1 ≤ m.count ∧ timeout = 0 ∧ mutexAcquireTimeout m t timeout
        = { m with caller := update m.caller t .timedOut }) ∨
      1 ≤ m.count ∧ timeout ≠ 0 ∧ ∃ w, waitQueueBlock m.wait t timeout = some w ∧
        mutexAcquireTimeout m t timeout
          = { m with
              count := m.count + 1
              wait := w
              caller := update m.caller t .acquiring } := by
  rcases em (1 ≤ m.count) with hc | hc
  · have hgt : m.count + 1 > 1 := by omega
    rcases em (timeout = 0) with h0 | h0
    · refine .inr (.inl ⟨hc, h0, ?_⟩)
      simp [mutexAcquireTimeout, hgt, waitQueueBlock, h0, mutexAcquireReturn]
    · refine .inr (.inr ⟨hc, h0, _, if_neg h0, ?_⟩)
      simp [mutexAcquireTimeout, hgt, waitQueueBlock, h0]
  · have hle : ¬ m.count + 1 > 1 := by omega
    exact .inl ⟨hc, by simp [mutexAcquireTimeout, hle, mutexAcquireReturn]⟩

/-- **A step concerns one thread.**  Whatever leaves the other threads alone
keeps the invariant once it does so for `t`, for the count and for who was
granted the mutex. -/
theorem MutexOk.frame (h : MutexOk m P) {P' : Finset ℕ} (t : ℕ) (hwait : m'.wait.Ok P')
    (hthr : ∀ u, u ≠ t → m'.wait.thr u = m.wait.thr u)
    (hcaller : ∀ u, u ≠ t → m'.caller u = m.caller u)
    (hholder : ∀ u, u ≠ t → (m'.holder = some u ↔ m.holder = some u))
    (hcount : m'.count = m'.wait.list.length + P'.card + (if m'.holder = none then 0 else 1))
    (howner : m'.caller t = .owner ↔ m'.holder = some t)
    (hacq : (m'.wait.thr t).state ≠ .running → m'.caller t = .acquiring)
    (hready : (m'.wait.thr t).state = .ready → (m'.wait.thr t).waitQueueBlockRet = .noError ∨
      (m'.wait.thr t).waitQueueBlockRet = .timedOut)
    (hgranted : m'.Granted t → m'.holder = none ∧ ∀ u, u ≠ t → ¬ m.Granted u)
    (hfree : m'.holder ≠ none → ∀ u, u ≠ t → ¬ m.Granted u) : MutexOk m' P' := by
  have hback : ∀ u, u ≠ t → m'.Granted u → m.Granted u := fun u hu hg => by
    unfold Mutex.Granted at hg
    rwa [hthr u hu] at hg
  refine ⟨hwait, hcount, fun u => ?_, fun u => ?_, fun u => ?_, fun u v hu hv => ?_, fun u hu => ?_⟩
  · rcases eq_or_ne u t with rfl | hut
    · exact howner
    · rw [hcaller u hut, hholder u hut, h.owner_iff u]
  · rcases eq_or_ne u t with rfl | hut
    · exact hacq
    · rw [hcaller u hut, hthr u hut]
      exact h.acquiring u
  · rcases eq_or_ne u t with rfl | hut
    · exact hready
    · rw [hthr u hut]
      exact h.ready_ret u
  · rcases eq_or_ne u t with rfl | hut <;> rcases eq_or_ne v u with rfl | hvu
    · rfl
    · exact absurd (hback v hvu hv) ((hgranted hu).2 v hvu)
    · rfl
    · rcases eq_or_ne v t with rfl | hvt
      · exact absurd (hback u hut hu) ((hgranted hv).2 u hut)
      · exact h.granted_unique u v (hback u hut hu) (hback v hvt hv)
  · rcases eq_or_ne u t with rfl | hut
    · exact (hgranted hu).1
    · by_contra hne
      exact hfree hne u hut (hback u hut hu)

theorem MutexOk.acquire (h : MutexOk m P) (ht : (m.wait.thr t).state = .running)
    (hh : m.holder ≠ some t) (timeout : ℕ) : MutexOk (mutexAcquireTimeout m t timeout) P := by
  have hfree : m.holder ≠ none → ∀ u, u ≠ t → ¬ m.Granted u :=
    fun hne u _ hg => hne (h.granted_free u hg)
  rcases mutexAcquireTimeout_cases m t timeout with ⟨hc, he⟩ | ⟨-, -, he⟩ | ⟨hc, h0, w, hw, he⟩
  · -- the mutex is free and nobody is on the way to it
    obtain ⟨hnone, hl, rfl⟩ := h.idle hc
    have hno : ∀ u, ¬ m.Granted u := fun u hu => by simpa using (h.wait.mem_pending u).2 hu.1
    rw [he]
    refine h.frame t h.wait (fun _ _ => rfl) (fun u hu => by simp [hu])
      (fun u hu => by simp [hnone, hu.symm]) (by simpa [hnone] using h.count_eq) (by simp)
      (fun hne => absurd ht hne) (fun hr => by simp [ht] at hr) (fun hg => absurd hg (hno t))
      (fun _ u _ => hno u)
  · rw [he]
    exact h.frame t h.wait (fun _ _ => rfl) (fun u hu => by simp [hu]) (fun _ _ => .rfl)
      h.count_eq (by simp [hh]) (fun hne => absurd ht hne) (fun hr => by simp [ht] at hr)
      (fun hg => by simp [Mutex.Granted, ht] at hg) hfree
  · obtain ⟨w', hw', hok, hlist, hblk, hthr⟩ := h.wait.block ht h0
    obtain rfl : w = w' := Option.some.inj (hw.symm.trans hw')
    rw [he]
    refine h.frame t hok hthr (fun u hu => by simp [hu]) (fun _ _ => .rfl) ?_ (by simp [hh])
      (fun _ => by simp) (fun hr => by simp [hblk] at hr)
      (fun hg => by simp [Mutex.Granted, hblk] at hg) hfree
    simp only [hlist, List.length_append, List.length_singleton, h.count_eq]
    omega

theorem MutexOk.timer (h : MutexOk m P) (t : ℕ) :
    ∃ P', MutexOk { m with wait := waitQueueTimeoutHandler m.wait t } P' := by
  have hfree : m.holder ≠ none → ∀ u, u ≠ t → ¬ m.Granted u :=
    fun hne u _ hg => hne (h.granted_free u hg)
  rcases em ((m.wait.thr t).state = .blocked) with hb | hb
  · obtain ⟨hok, hlist, hmem, htP, hthr, hother⟩ := h.wait.timeout hb
    refine ⟨insert t P, h.frame t hok hother (fun _ _ => rfl) (fun _ _ => .rfl) ?_ (h.owner_iff t)
      (fun _ => h.acquiring t (by simp [hb])) (fun _ => .inr (by simp [hthr]))
      (fun hg => by simp [Mutex.Granted, hthr] at hg) hfree⟩
    have hpos := List.length_pos_of_mem hmem
    simp only [hlist, List.length_erase_of_mem hmem, Finset.card_insert_of_notMem htP, h.count_eq]
    omega
  · obtain ⟨hok, hlist, hthr, hother⟩ := h.wait.timeout_of_ne hb
    refine ⟨P, h.frame t hok hother (fun _ _ => rfl) (fun _ _ => .rfl) ?_ (h.owner_iff t)
      (fun hne => h.acquiring t (by simpa [hthr] using hne))
      (fun hr => by simpa [hthr] using h.ready_ret t (by simpa [hthr] using hr)) (fun hg => ?_) hfree⟩
    · simpa only [hlist] using h.count_eq
    · have hg' : m.Granted t := by simpa [Mutex.Granted, hthr] using hg
      exact ⟨h.granted_free t hg', fun u hu hu' => hu (h.granted_unique u t hu' hg')⟩

/-- The two ways through the second half of `mutex_acquire_timeout`. -/
theorem MutexOk.resume_cases (h : MutexOk m P) (ht : (m.wait.thr t).state = .ready) :
    (m.Granted t ∧ mutexAcquireResume m t = { m with
        wait := (waitQueueResume m.wait t).1
        holder := some t
        caller := update m.caller t .owner }) ∨
      (¬ m.Granted t ∧ mutexAcquireResume m t = { m with
        wait := (waitQueueResume m.wait t).1
        count := m.count - 1
        caller := update m.caller t .timedOut }) := by
  rcases h.ready_ret t ht with hr | hr
  · exact .inl ⟨⟨ht, hr⟩, by simp [mutexAcquireResume, mutexAcquireReturn, waitQueueResume, hr]⟩
  · exact .inr ⟨by simp [Mutex.Granted, hr],
      by simp [mutexAcquireResume, mutexAcquireReturn, waitQueueResume, hr]⟩

theorem MutexOk.resume (h : MutexOk m P) (ht : (m.wait.thr t).state = .ready) :
    MutexOk (mutexAcquireResume m t) (P.erase t) := by
  obtain ⟨hok, hlist, hrun, hother⟩ := h.wait.resume ht
  have hcard := Finset.card_erase_add_one ((h.wait.mem_pending t).2 ht)
  have hnot : ¬ m.holder = some t := fun hh => by
    rw [h.holder_running hh] at ht
    cases ht
  rcases h.resume_cases ht with ⟨hg, he⟩ | ⟨-, he⟩
  · -- handed over by a release: nobody else was granted the mutex
    have hnone := h.granted_free t hg
    rw [he]
    refine h.frame t hok hother (fun u hu => by simp [hu]) (fun u hu => by simp [hnone, hu.symm])
      ?_ (by simp) (fun hne => by simp [hrun] at hne) (fun hr => by simp [hrun] at hr)
      (fun hg => by simp [Mutex.Granted, hrun] at hg)
      (fun _ u hu hg' => hu (h.granted_unique u t hg' hg))
    simp only [hlist, h.count_eq, hnone, if_true, reduceCtorEq, if_false]
    omega
  · rw [he]
    refine h.frame t hok hother (fun u hu => by simp [hu]) (fun _ _ => .rfl) ?_ (by simp [hnot])
      (fun hne => by simp [hrun] at hne) (fun hr => by simp [hrun] at hr)
      (fun hg => by simp [Mutex.Granted, hrun] at hg) (fun hne u _ hg => hne (h.granted_free u hg))
    simp only [hlist, h.count_eq]
    omega

/-- `mutex_release` before it looks for somebody to wake. -/
def Mutex.drop (m : Mutex) (t : ℕ) : Mutex :=
  { m with
    holder := none
    count := m.count - 1
    caller := update m.caller t .outside }

theorem MutexOk.drop (h : MutexOk m P) (ht : m.holder = some t) : MutexOk (m.drop t) P := by
  have hno : ∀ u, ¬ m.Granted u := fun u hu => by simpa [ht] using h.granted_free u hu
  refine h.frame t h.wait (fun _ _ => rfl) (fun u hu => by simp [Mutex.drop, hu])
    (fun u hu => by simp [Mutex.drop, ht, hu.symm]) ?_ (by simp [Mutex.drop])
    (fun hne => absurd (h.holder_running ht) hne) (fun hr => ?_) (fun hg => absurd hg (hno t))
    (fun _ u _ => hno u)
  · have hc := h.count_eq
    simp only [ht, reduceCtorEq, if_false] at hc
    simp only [Mutex.drop, if_true]
    omega
  · simp [Mutex.drop, h.holder_running ht] at hr

/-- A release wakes the head of the list when there is one. -/
theorem MutexOk.release_cases (h : MutexOk m P) (ht : m.holder = some t) :
    (m.wait.list = [] ∧ mutexRelease m t = m.drop t) ∨
      ∃ u l, m.wait.list = u :: l ∧ mutexRelease m t
        = { m.drop t with wait := (waitQueueWakeOne m.wait .noError).1 } := by
  cases hl : m.wait.list with
  | nil =>
    refine .inl ⟨rfl, ?_⟩
    simp only [mutexRelease, waitQueueWakeOne_nil hl]
    split <;> rfl
  | cons u l =>
    refine .inr ⟨u, l, rfl, ?_⟩
    have hc := h.count_eq
    simp only [hl, ht, List.length_cons, reduceCtorEq, if_false] at hc
    exact if_pos (show m.count - 1 ≥ 1 by omega)

theorem MutexOk.release (h : MutexOk m P) (ht : m.holder = some t) :
    ∃ P', MutexOk (mutexRelease m t) P' := by
  have hd := h.drop ht
  rcases h.release_cases ht with ⟨-, he⟩ | ⟨u, l, hl, he⟩
  · exact ⟨P, he ▸ hd⟩
  obtain ⟨hok, hlist, huP, -, hthr, hother⟩ := h.wait.wakeOne hl .noError
  have hb : (m.wait.thr u).state = .blocked := (h.wait.mem_list u).1 (by simp [hl])
  have hno : ∀ v, ¬ m.Granted v := fun v hv => by simpa [ht] using h.granted_free v hv
  rw [he]
  refine ⟨insert u P, hd.frame u hok hother (fun _ _ => rfl) (fun _ _ => .rfl) ?_ (hd.owner_iff u)
    (fun _ => hd.acquiring u (by simp [Mutex.drop, hb])) (fun _ => .inl (by simp [hthr]))
    (fun _ => ⟨rfl, fun v _ => hno v⟩) (fun hne => absurd rfl hne)⟩
  have hc := hd.count_eq
  simp only [Mutex.drop, hl, List.length_cons, if_true] at hc
  simp only [Mutex.drop, hlist, Finset.card_insert_of_notMem huP, if_true]
  omega

variable {a : MutexAct}

theorem MutexOk.step (h : MutexOk m P) (hs : mutexStep m a = some m') :
    ∃ P', MutexOk m' P' := by
  cases a with
  | acquire t timeout =>
    simp only [mutexStep, Option.ite_none_right_eq_some, Option.some.injEq] at hs
    obtain ⟨⟨ht, hh⟩, rfl⟩ := hs
    exact ⟨P, h.acquire ht hh timeout⟩
  | timer t =>
    simp only [mutexStep, Option.ite_none_right_eq_some, Option.some.injEq] at hs
    obtain ⟨-, rfl⟩ := hs
    exact h.timer t
  | resume t =>
    simp only [mutexStep, Option.ite_none_right_eq_some, Option.some.injEq] at hs
    obtain ⟨ht, rfl⟩ := hs
    exact ⟨P.erase t, h.resume ht⟩
  | release t =>
    simp only [mutexStep, Option.ite_none_right_eq_some, Option.some.injEq] at hs
    obtain ⟨ht, rfl⟩ := hs
    exact h.release ht

def Mutex.Ok (m : Mutex) : Prop := ∃ P, MutexOk m P

theorem Mutex.ok_of_run {as : List MutexAct} (h : run mutexStep Mutex.init as = some m) : m.Ok :=
  run_inv (fun _ _ _ hok hst => hok.choose_spec.step hst) as Mutex.init m ⟨∅, mutexOk_init⟩ h

/-! ### Mutual exclusion -/

/-- A thread whose acquire timed out stays that way until it calls acquire again. -/
theorem MutexOk.step_timedOut (h : MutexOk m P) (hs : mutexStep m a = some m')
    (hto : m.caller t = .timedOut) (ha : ∀ timeout, a ≠ .acquire t timeout) :
    m'.caller t = .timedOut := by
  have hrun : (m.wait.thr t).state = .running := by
    by_contra hne
    simp [h.acquiring t hne] at hto
  cases a with
  | acquire u timeout =>
    simp only [mutexStep, Option.ite_none_right_eq_some, Option.some.injEq] at hs
    obtain ⟨-, rfl⟩ := hs
    have hut : t ≠ u := fun he => ha timeout (he ▸ rfl)
    rcases mutexAcquireTimeout_cases m u timeout with ⟨-, he⟩ | ⟨-, -, he⟩ | ⟨-, -, w, -, he⟩ <;>
      simp [he, hut, hto]
  | timer u =>
    simp only [mutexStep, Option.ite_none_right_eq_some, Option.some.injEq] at hs
    obtain ⟨-, rfl⟩ := hs
    exact hto
  | resume u =>
    simp only [mutexStep, Option.ite_none_right_eq_some, Option.some.injEq] at hs
    obtain ⟨hu, rfl⟩ := hs
    have hut : t ≠ u := by
      rintro rfl
      simp [hrun] at hu
    rcases h.resume_cases hu with ⟨-, he⟩ | ⟨-, he⟩ <;> simp [he, hut, hto]
  | release u =>
    simp only [mutexStep, Option.ite_none_right_eq_some, Option.some.injEq] at hs
    obtain ⟨hu, rfl⟩ := hs
    have hut : t ≠ u := by
      rintro rfl
      simp [(h.owner_iff t).2 hu] at hto
    rcases h.release_cases hu with ⟨-, he⟩ | ⟨v, l, -, he⟩ <;> simp [he, Mutex.drop, hut, hto]

/-- **Mutual exclusion.**  After any interleaving, at most one thread is between
a successful return of acquire and its release, a thread is there exactly when
`m->holder` is that thread, and a thread whose acquire returned `ERR_TIMED_OUT`
is not the holder in any later state before it calls acquire again. -/
theorem mutex_mutual_exclusion (as : List MutexAct) (m : Mutex)
    (h : run mutexStep Mutex.init as = some m) :
    (∀ t u, m.caller t = .owner → m.caller u = .owner → t = u) ∧
      (∀ t, m.caller t = .owner ↔ m.holder = some t) ∧
      ∀ t bs m', m.caller t = .timedOut → (∀ timeout, .acquire t timeout ∉ bs) →
        run mutexStep m bs = some m' → m'.holder ≠ some t := by
  obtain ⟨P, hok⟩ := Mutex.ok_of_run h
  refine ⟨fun t u ht hu => ?_, hok.owner_iff, fun t bs m' hto hbs hrun => ?_⟩
  · rw [hok.owner_iff t] at ht
    rw [hok.owner_iff u, ht] at hu
    exact Option.some.inj hu
  clear h
  induction bs generalizing m P with
  | nil =>
    cases hrun
    intro hh
    simp [(hok.owner_iff t).2 hh] at hto
  | cons a bs ih =>
    obtain ⟨m₁, h₁, h₂⟩ := run_cons_eq_some.1 hrun
    obtain ⟨P₁, hok₁⟩ := hok.step h₁
    exact ih m₁ P₁ hok₁ (hok.step_timedOut h₁ hto fun k hk => hbs k (by simp [hk]))
      (fun k hk => hbs k (List.mem_cons_of_mem _ hk)) h₂

/-- A waiter times out while the mutex is held, and the release passes it by. -/
theorem mutex_mutual_exclusion_timeout :
    ∃ m, run mutexStep Mutex.init
        [.acquire 0 infiniteTime, .acquire 1 10, .timer 1, .resume 1] = some m ∧
      m.caller 0 = .owner ∧ m.holder = some 0 ∧ m.caller 1 = .timedOut ∧
      ∀ m', run mutexStep m [.release 0] = some m' → m'.holder ≠ some 1 := by
  refine ⟨_, rfl, rfl, rfl, rfl, fun m' h' => ?_⟩
  exact (mutex_mutual_exclusion [.acquire 0 infiniteTime, .acquire 1 10, .timer 1, .resume 1]
    _ rfl).2.2 1 [.release 0] m' rfl (by simp) h'

/-! ### Lost wake-ups -/

/-- Whoever is blocked on the mutex waits for a holder or for a thread that
`mutex_release` has woken; without these and without a timed-out waiter still
to run, nobody is blocked. -/
def NoLostWakeup (m : Mutex) : Prop :=
  ((∃ t, (m.wait.thr t).state = .blocked) → (∃ t, m.holder = some t) ∨ ∃ t, m.Granted t) ∧
    (m.holder = none → (∀ t, (m.wait.thr t).state ≠ .ready) →
      ∀ t, (m.wait.thr t).state ≠ .blocked)

/-- Nobody starts to wait for a mutex that is free and handed to nobody but that
a timed-out waiter still counts on. -/
def MutexAct.Prompt (m : Mutex) : MutexAct → Prop
  | .acquire _ timeout => timeout ≠ 0 → m.holder = none → (∀ t, ¬ m.Granted t) → m.count ≤ 0
  | _ => True

theorem MutexOk.noLostWakeup_iff (h : MutexOk m P) :
    NoLostWakeup m ↔ m.wait.list = [] ∨ m.holder ≠ none ∨ ∃ t, m.Granted t := by
  have hblk : m.wait.list = [] ↔ ∀ t, (m.wait.thr t).state ≠ .blocked := by
    simp only [List.eq_nil_iff_forall_not_mem, h.wait.mem_list, ne_eq]
  have hhold : m.holder ≠ none ↔ ∃ t, m.holder = some t := Option.ne_none_iff_exists'
  rw [hblk, hhold, NoLostWakeup]
  constructor
  · rintro ⟨h₁, -⟩
    rcases em (∃ t, (m.wait.thr t).state = .blocked) with hb | hb
    · exact .inr (h₁ hb)
    · exact .inl fun t ht => hb ⟨t, ht⟩
  · rintro (hb | hh | hg)
    · exact ⟨fun ⟨t, ht⟩ => absurd ht (hb t), fun _ _ => hb⟩
    · exact ⟨fun _ => .inl hh, fun hn => absurd hn (hhold.2 hh)⟩
    · exact ⟨fun _ => .inr hg, fun _ hr => absurd hg.choose_spec.1 (hr _)⟩

/-- A step that starts from a state without lost wake-ups loses one exactly when
it is not prompt. -/
theorem MutexOk.step_noLostWakeup (h : MutexOk m P) (hn : NoLostWakeup m)
    (hs : mutexStep m a = some m') : NoLostWakeup m' ↔ a.Prompt m := by
  obtain ⟨P', h'⟩ := h.step hs
  rw [h.noLostWakeup_iff] at hn
  rw [h'.noLostWakeup_iff]
  cases a with
  | acquire t timeout =>
    simp only [mutexStep, Option.ite_none_right_eq_some, Option.some.injEq] at hs
    obtain ⟨⟨ht, hh⟩, rfl⟩ := hs
    rcases mutexAcquireTimeout_cases m t timeout with ⟨hc, he⟩ | ⟨-, h0, he⟩ | ⟨hc, h0, w, hw, he⟩
    · rw [he]
      exact ⟨fun _ _ _ _ => by omega, fun _ => .inr (.inl (by simp))⟩
    · rw [he]
      exact ⟨fun _ h0' => absurd h0 h0', fun _ => hn⟩
    · obtain ⟨w', hw', -, hlist, hblk, hthr⟩ := h.wait.block ht h0
      obtain rfl : w = w' := Option.some.inj (hw.symm.trans hw')
      have hgr : (∃ u, Mutex.Granted { m with
          count := m.count + 1
          wait := w
          caller := update m.caller t .acquiring } u) ↔ ∃ u, m.Granted u := by
        refine exists_congr fun u => ?_
        rcases eq_or_ne u t with rfl | hut
        · simp [Mutex.Granted, hblk, ht]
        · simp [Mutex.Granted, hthr u hut]
      rw [he, hgr]
      simp only [hlist, MutexAct.Prompt]
      constructor
      · rintro (hl | hne | ⟨u, hu⟩)
        · simp at hl
        · exact fun _ hnone => absurd hnone hne
        · exact fun _ _ hno => absurd hu (hno u)
      · intro hp
        by_contra hcon
        simp only [not_or, not_exists, not_not] at hcon
        have := hp h0 hcon.2.1 hcon.2.2
        omega
  | timer t =>
    simp only [mutexStep, Option.ite_none_right_eq_some, Option.some.injEq] at hs
    obtain ⟨-, rfl⟩ := hs
    refine ⟨fun _ => trivial, fun _ => ?_⟩
    rcases em ((m.wait.thr t).state = .blocked) with hb | hb
    · obtain ⟨-, hlist, hmem, -, hthr, hother⟩ := h.wait.timeout hb
      rcases hn with hl | hne | ⟨u, hu⟩
      · simp [hl] at hmem
      · exact .inr (.inl hne)
      · have hut : u ≠ t := by
          rintro rfl
          simp [Mutex.Granted, hb] at hu
        exact .inr (.inr ⟨u, by simpa [Mutex.Granted, hother u hut] using hu⟩)
    · obtain ⟨-, hlist, hthr, hother⟩ := h.wait.timeout_of_ne hb
      rcases hn with hl | hne | ⟨u, hu⟩
      · exact .inl (hlist.trans hl)
      · exact .inr (.inl hne)
      · refine .inr (.inr ⟨u, ?_⟩)
        rcases eq_or_ne u t with rfl | hut
        · simpa [Mutex.Granted, hthr] using hu
        · simpa [Mutex.Granted, hother u hut] using hu
  | resume t =>
    simp only [mutexStep, Option.ite_none_right_eq_some, Option.some.injEq] at hs
    obtain ⟨ht, rfl⟩ := hs
    refine ⟨fun _ => trivial, fun _ => ?_⟩
    obtain ⟨-, hlist, -, hother⟩ := h.wait.resume ht
    rcases h.resume_cases ht with ⟨-, he⟩ | ⟨hng, he⟩ <;> rw [he]
    · exact .inr (.inl (by simp))
    · rcases hn with hl | hne | ⟨u, hu⟩
      · exact .inl (hlist.trans hl)
      · exact .inr (.inl hne)
      · have hut : u ≠ t := by
          rintro rfl
          exact hng hu
        exact .inr (.inr ⟨u, by simpa [Mutex.Granted, hother u hut] using hu⟩)
  | release t =>
    simp only [mutexStep, Option.ite_none_right_eq_some, Option.some.injEq] at hs
    obtain ⟨ht, rfl⟩ := hs
    refine ⟨fun _ => trivial, fun _ => ?_⟩
    rcases h.release_cases ht with ⟨hl, he⟩ | ⟨u, l, hl, he⟩ <;> rw [he]
    · exact .inl hl
    · obtain ⟨-, -, -, -, hthr, -⟩ := h.wait.wakeOne hl .noError
      exact .inr (.inr ⟨u, by simp [Mutex.Granted, hthr]⟩)

/-- **Which runs lose a wake-up.**  A run keeps every blocked thread within
reach of a wake-up in all its states exactly when none of its steps starts to
wait while the mutex is free, handed to nobody, and still counted by a waiter
that timed out and has not run. -/
theorem mutex_noLostWakeup_iff (as : List MutexAct) (m : Mutex)
    (h : run mutexStep Mutex.init as = some m) :
    Throughout mutexStep NoLostWakeup Mutex.init as ↔
      Along mutexStep (fun m a => a.Prompt m) Mutex.init as := by
  have hinit : NoLostWakeup Mutex.init := mutexOk_init.noLostWakeup_iff.2 (.inl rfl)
  have hstep : ∀ s a s', Mutex.Ok s → NoLostWakeup s → mutexStep s a = some s' →
      Mutex.Ok s' ∧ (NoLostWakeup s' ↔ a.Prompt s) :=
    fun s a s' ⟨_, hok⟩ hn hs => ⟨hok.step hs, hok.step_noLostWakeup hn hs⟩
  exact throughout_iff_along hstep as Mutex.init m ⟨∅, mutexOk_init⟩ hinit h

/-- A handover between two threads loses nothing. -/
theorem mutex_noLostWakeup_handover :
    Throughout mutexStep NoLostWakeup Mutex.init
      [.acquire 0 infiniteTime, .acquire 1 infiniteTime, .release 0, .resume 1] := by
  refine (mutex_noLostWakeup_iff _ _ rfl).2 ⟨fun _ _ _ => le_rfl, ?_⟩
  rintro _ ⟨⟩
  refine ⟨fun _ (hh : some 0 = none) => (nomatch hh), ?_⟩
  rintro _ ⟨⟩
  refine ⟨trivial, ?_⟩
  rintro _ ⟨⟩
  exact ⟨trivial, fun _ _ => trivial⟩

/-- **A lost wake-up.**  Thread 1 times out and does not run; thread 0 releases
with nobody to wake; thread 2 counts thread 1 and queues; thread 1 runs and backs
out.  Thread 2 is blocked on a mutex nobody holds and nobody will release. -/
theorem mutex_wakeup_lost :
    ∃ m, run mutexStep Mutex.init [.acquire 0 infiniteTime, .acquire 1 10, .timer 1, .release 0,
        .acquire 2 infiniteTime, .resume 1] = some m ∧ ¬ NoLostWakeup m := by
  refine ⟨_, rfl, fun h => h.2 rfl (fun t => ?_) 2 rfl⟩
  match t with
  | 0 | 1 | 2 => decide
  | t + 3 => exact fun ht => nomatch ht

end Kernel
end LittleKernel
