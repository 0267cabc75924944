/-
# Semaphores

`kernel/semaphore.c`: `sem_post`, `sem_wait`, `sem_trywait` and
`sem_timedwait`, interleaved at thread-lock granularity by any number of
threads, with the timer of a waiter firing at any moment.

A non-negative `sem->count` is the number of free permits, a negative one the
number of waiters, among which a waiter that timed out is counted until it runs
again.  It is an `int`, set from an `unsigned int`, and wraps.  The permits that are
neither taken nor on their way to a woken thread are therefore the count plus the
queue plus the timed-out waiters (`SemOk.balance`), and no wait succeeds without one
(`sem_conservation`).

Between its timeout and its next run such a waiter hides a permit: `sem_post`
sees a count of at most zero, finds nobody to wake and leaves the count there,
and a thread that now calls `sem_wait` goes to sleep beside a free permit
(`sem_permit_stranded`).  Runs in which nobody does that strand nothing.
-/

import LittleKernel.Kernel.WaitQueue
import LittleKernel.Lib.Machine
import Mathlib.Data.Set.Card

namespace LittleKernel
namespace Kernel

open Machine

/-- What an `int` holds of a number. -/
def int (x : ℤ) : ℤ := x.bmod (2 ^ 32)

theorem int_of_fits {x : ℤ} (hmin : -2 ^ 31 ≤ x) (hmax : x < 2 ^ 31) : int x = x :=
  Int.bmod_eq_of_le_mul_two (by push_cast; omega) (by push_cast; omega)

/-- The function whose `wait_queue_block` a thread is in, or was in last. -/
inductive SemCall where
  | wait
  | timedwait
  deriving DecidableEq

/-- `semaphore_t` and the threads that use it.  `posts` and `taken` count the
calls of `sem_post` and the waits that returned `NO_ERROR`; no function of the
kernel reads them. -/
structure Semaphore where
  count : ℤ
  wait : Waits
  call : ℕ → SemCall
  posts : ℕ
  taken : ℕ

/-- `sem_init`. -/
def Semaphore.init (value : ℕ) : Semaphore := ⟨int value, Waits.init, fun _ => .wait, 0, 0⟩

/-- The return of a wait with `ret`. -/
def Semaphore.return (s : Semaphore) (ret : Status) : Semaphore :=
  if ret = .noError then { s with taken := s.taken + 1 } else s

/-- `sem_post`. -/
def semPost (s : Semaphore) : Semaphore :=
  let s := { s with count := int (s.count + 1), posts := s.posts + 1 }
  if s.count ≤ 0 then { s with wait := (waitQueueWakeOne s.wait .noError).1 } else s

/-- The tail of `sem_wait` and `sem_timedwait` once `wait_queue_block` has
returned `ret`: only the second gives the count back. -/
def semWaitReturn (s : Semaphore) (c : SemCall) (ret : Status) : Semaphore :=
  match c, ret with
  | .timedwait, .timedOut => { s with count := int (s.count + 1) }
  | _, ret => s.return ret

/-- `sem_wait` and `sem_timedwait` by `t`, up to the return or to the
`thread_resched` in `wait_queue_block`. -/
def semBlock (s : Semaphore) (c : SemCall) (t timeout : ℕ) : Semaphore :=
  let s := { s with count := int (s.count - 1) }
  if s.count < 0 then
    match waitQueueBlock s.wait t timeout with
    | none => semWaitReturn s c .timedOut
    | some w => { s with wait := w, call := Function.update s.call t c }
  else s.return .noError

/-- `sem_wait` by `t`. -/
def semWait (s : Semaphore) (t : ℕ) : Semaphore := semBlock s .wait t infiniteTime

/-- `sem_timedwait` by `t`. -/
def semTimedwait (s : Semaphore) (t timeout : ℕ) : Semaphore := semBlock s .timedwait t timeout

/-- `sem_trywait`. -/
def semTrywait (s : Semaphore) : Semaphore :=
  if s.count ≤ 0 then s.return .notReady else { s with count := int (s.count - 1) }.return .noError

/-- `sem_wait` or `sem_timedwait` by `t` from the return of that
`thread_resched` on. -/
def semResume (s : Semaphore) (t : ℕ) : Semaphore :=
  semWaitReturn { s with wait := (waitQueueResume s.wait t).1 } (s.call t)
    (waitQueueResume s.wait t).2

inductive SemAct where
  | post
  | wait (t : ℕ)
  | trywait (t : ℕ)
  | timedwait (t timeout : ℕ)
  | timer (t : ℕ)
  | resume (t : ℕ)
  deriving DecidableEq

/-- One step: a call by a thread outside the wait code, a post by anybody, an
armed timer firing, or the scheduler running a woken thread. -/
def semStep (s : Semaphore) : SemAct → Option Semaphore
  | .post => some (semPost s)
  | .wait t => if (s.wait.thr t).state = .running then some (semWait s t) else none
  | .trywait t => if (s.wait.thr t).state = .running then some (semTrywait s) else none
  | .timedwait t timeout =>
    if (s.wait.thr t).state = .running then some (semTimedwait s t timeout) else none
  | .timer t =>
    if (s.wait.thr t).timer then some { s with wait := waitQueueTimeoutHandler s.wait t }
    else none
  | .resume t => if (s.wait.thr t).state = .ready then some (semResume s t) else none

/-- `t` was woken with `ret` and has not run since. -/
def Semaphore.Pending (s : Semaphore) (ret : Status) (t : ℕ) : Prop :=
  (s.wait.thr t).state = .ready ∧ (s.wait.thr t).waitQueueBlockRet = ret

/-! ### The invariant -/

/-- What holds between any two steps of a semaphore that started at `n`, `G`
being the threads a post has woken and `T` those that timed out, as long as they
have not run. -/
structure SemOk (n : ℕ) (s : Semaphore) (G T : Finset ℕ) : Prop where
  wait : ∃ P, s.wait.Ok P
  mem_granted : ∀ t, t ∈ G ↔ s.Pending .noError t
  mem_timedOut : ∀ t, t ∈ T ↔ s.Pending .timedOut t
  ready_ret : ∀ t, (s.wait.thr t).state = .ready → s.Pending .noError t ∨ s.Pending .timedOut t
  timed : ∀ t, (s.wait.thr t).timer ∨ s.Pending .timedOut t → s.call t = .timedwait
  balance : s.count + s.wait.list.length + T.card + (s.taken + G.card) = n + s.posts
  free_nonneg : 0 ≤ s.count + s.wait.list.length + T.card
  int_min : -2 ^ 31 ≤ s.count
  fits : n + s.posts < 2 ^ 31

theorem semOk_init {n : ℕ} (hn : n < 2 ^ 31) : SemOk n (Semaphore.init n) ∅ ∅ where
  wait := ⟨∅, Waits.ok_init⟩
  mem_granted t := by simp [Semaphore.Pending, Semaphore.init, Waits.init]
  mem_timedOut t := by simp [Semaphore.Pending, Semaphore.init, Waits.init]
  ready_ret t h := by simp [Semaphore.init, Waits.init] at h
  timed t h := by simp [Semaphore.Pending, Semaphore.init, Waits.init] at h
  balance := by simp [Semaphore.init, Waits.init, int_of_fits (x := n) (by omega) (by omega)]
  free_nonneg := by simp [Semaphore.init, Waits.init, int_of_fits (x := n) (by omega) (by omega)]
  int_min := by simp [Semaphore.init, int_of_fits (x := n) (by omega) (by omega)]
  fits := hn

variable {n : ℕ} {s s' : Semaphore} {G T : Finset ℕ} {t : ℕ}

/-- **A step concerns one thread.** -/
theorem SemOk.frame (h : SemOk n s G T) {G' T' : Finset ℕ} (t : ℕ) (hwait : ∃ P, s'.wait.Ok P)
    (hthr : ∀ u, u ≠ t → s'.wait.thr u = s.wait.thr u) (hcall : ∀ u, u ≠ t → s'.call u = s.call u)
    (hG : ∀ u, u ≠ t → (u ∈ G' ↔ u ∈ G)) (hT : ∀ u, u ≠ t → (u ∈ T' ↔ u ∈ T))
    (htG : t ∈ G' ↔ s'.Pending .noError t) (htT : t ∈ T' ↔ s'.Pending .timedOut t)
    (hready : (s'.wait.thr t).state = .ready → s'.Pending .noError t ∨ s'.Pending .timedOut t)
    (htimed : (s'.wait.thr t).timer ∨ s'.Pending .timedOut t → s'.call t = .timedwait)
    (hbal : s'.count + s'.wait.list.length + T'.card + (s'.taken + G'.card) = n + s'.posts)
    (hfree : 0 ≤ s'.count + s'.wait.list.length + T'.card) (hmin : -2 ^ 31 ≤ s'.count)
    (hfits : n + s'.posts < 2 ^ 31) : SemOk n s' G' T' := by
  have hpend : ∀ u, u ≠ t → ∀ r, s'.Pending r u ↔ s.Pending r u := fun u hu r => by
    simp [Semaphore.Pending, hthr u hu]
  refine ⟨hwait, fun u => ?_, fun u => ?_, fun u => ?_, fun u => ?_, hbal, hfree, hmin, hfits⟩
  · rcases eq_or_ne u t with rfl | hut
    · exact htG
    · rw [hG u hut, hpend u hut, h.mem_granted]
  · rcases eq_or_ne u t with rfl | hut
    · exact htT
    · rw [hT u hut, hpend u hut, h.mem_timedOut]
  · rcases eq_or_ne u t with rfl | hut
    · exact hready
    · rw [hthr u hut, hpend u hut, hpend u hut]
      exact h.ready_ret u
  · rcases eq_or_ne u t with rfl | hut
    · exact htimed
    · rw [hthr u hut, hcall u hut, hpend u hut]
      exact h.timed u

theorem SemOk.count_lt (h : SemOk n s G T) : s.count < 2 ^ 31 := by
  have hb := h.balance
  have hf := h.fits
  omega

/-- The three ways through the first half of a wait. -/
theorem semBlock_cases (s : Semaphore) (c : SemCall) (t timeout : ℕ)
    (hmin : -2 ^ 31 < s.count) (hmax : s.count < 2 ^ 31) (h0 : timeout = 0 → c = .timedwait) :
    (1 ≤ s.count ∧ semBlock s c t timeout
        = { s with count := s.count - 1, taken := s.taken + 1 }) ∨
      (¬ 1 ≤ s.count ∧ timeout = 0 ∧ semBlock s c t timeout = s) ∨
      ¬ 1 ≤ s.count ∧ timeout ≠ 0 ∧ ∃ w, waitQueueBlock s.wait t timeout = some w ∧
        semBlock s c t timeout
          = { s with
              count := s.count - 1
              wait := w
              call := Function.update s.call t c } := by
  have hint : int (s.count - 1) = s.count - 1 := int_of_fits (by omega) (by omega)
  have hself : int s.count = s.count := int_of_fits hmin.le hmax
  rcases em (1 ≤ s.count) with hc | hc
  · have hle : ¬ s.count - 1 < 0 := by omega
    exact .inl ⟨hc, by simp [semBlock, hint, hle, Semaphore.return]⟩
  · have hlt : s.count - 1 < 0 := by omega
    rcases em (timeout = 0) with h | h
    · refine .inr (.inl ⟨hc, h, ?_⟩)
      simp [semBlock, hint, hlt, waitQueueBlock, h, h0 h, semWaitReturn, hself]
    · refine .inr (.inr ⟨hc, h, _, if_neg h, ?_⟩)
      simp [semBlock, hint, hlt, waitQueueBlock, h]

section

variable (h : SemOk n s G T)
include h

theorem SemOk.take (hc : 1 ≤ s.count) :
    SemOk n { s with count := s.count - 1, taken := s.taken + 1 } G T := by
  have hb := h.balance
  have hf := h.free_nonneg
  refine ⟨h.wait, h.mem_granted, h.mem_timedOut, h.ready_ret, h.timed, ?_, ?_, ?_, h.fits⟩
  · simp only
    omega
  · simp only
    omega
  · simp only
    omega

theorem SemOk.block {c : SemCall} {timeout : ℕ} (hmin : -2 ^ 31 < s.count)
    (ht : (s.wait.thr t).state = .running) (h0 : timeout = 0 → c = .timedwait)
    (hinf : timeout ≠ infiniteTime → c = .timedwait) : SemOk n (semBlock s c t timeout) G T := by
  rcases semBlock_cases s c t timeout hmin h.count_lt h0 with
    ⟨hc, he⟩ | ⟨-, -, he⟩ | ⟨hc, hne, w, hw, he⟩
  · rw [he]
    exact h.take hc
  · rwa [he]
  · obtain ⟨P, hP⟩ := h.wait
    obtain ⟨w', hw', hok, hlist, hblk, hthr⟩ := hP.block ht hne
    obtain rfl : w = w' := Option.some.inj (hw.symm.trans hw')
    have hb := h.balance
    have hf := h.free_nonneg
    rw [he]
    refine h.frame t ⟨P, hok⟩ hthr (fun u hu => by simp [hu]) (fun _ _ => .rfl) (fun _ _ => .rfl)
      ?_ ?_ (fun hr => by simp [hblk] at hr) (fun hr => ?_) ?_ ?_ ?_ h.fits
    · simp [h.mem_granted, Semaphore.Pending, hblk, ht]
    · simp [h.mem_timedOut, Semaphore.Pending, hblk, ht]
    · simpa using hinf (by simpa [hblk, Semaphore.Pending] using hr)
    · simp only [hlist, List.length_append, List.length_singleton]
      omega
    · simp only [hlist, List.length_append, List.length_singleton]
      omega
    · simp only
      omega

/-- `sem_trywait` takes a permit or does nothing. -/
theorem SemOk.semTrywait_eq : semTrywait s =
    if s.count ≤ 0 then s else { s with count := s.count - 1, taken := s.taken + 1 } := by
  unfold semTrywait
  split_ifs with hc
  · rfl
  · have hlt := h.count_lt
    rw [int_of_fits (by omega) (by omega)]
    rfl

theorem SemOk.trywait : SemOk n (semTrywait s) G T := by
  rw [h.semTrywait_eq]
  split_ifs with hc
  · exact h
  · exact h.take (by omega)

theorem SemOk.timer (t : ℕ) (ht : (s.wait.thr t).timer) :
    ∃ T', SemOk n { s with wait := waitQueueTimeoutHandler s.wait t } G T' ∧
      (s.wait.list = [] → (waitQueueTimeoutHandler s.wait t).list = []) := by
  obtain ⟨P, hP⟩ := h.wait
  have hb := h.balance
  have hf := h.free_nonneg
  rcases em ((s.wait.thr t).state = .blocked) with hblk | hblk
  · obtain ⟨hok, hlist, hmem, -, hthr, hother⟩ := hP.timeout hblk
    have htT : t ∉ T := by simp [h.mem_timedOut, Semaphore.Pending, hblk]
    have hlen := List.length_erase_of_mem hmem
    have hpos := List.length_pos_of_mem hmem
    have hcard := Finset.card_insert_of_notMem htT
    refine ⟨insert t T, h.frame t ⟨_, hok⟩ hother (fun _ _ => rfl) (fun _ _ => .rfl)
      (fun u hu => by simp [hu]) ?_ ?_ ?_ (fun _ => h.timed t (.inl ht)) ?_ ?_ h.int_min h.fits,
      fun hnil => by simp [hnil] at hmem⟩
    · simp [h.mem_granted, Semaphore.Pending, hthr, hblk]
    · simp [Semaphore.Pending, hthr]
    · simp [Semaphore.Pending, hthr]
    · simp only [hlist, hlen, hcard]
      omega
    · simp only [hlist, hlen, hcard]
      omega
  · obtain ⟨hok, hlist, hthr, hother⟩ := hP.timeout_of_ne hblk
    refine ⟨T, h.frame t ⟨_, hok⟩ hother (fun _ _ => rfl) (fun _ _ => .rfl) (fun _ _ => .rfl)
      ?_ ?_ (fun hr => ?_) (fun _ => h.timed t (.inl ht)) ?_ ?_ h.int_min h.fits, hlist.trans⟩
    · simp [h.mem_granted, Semaphore.Pending, hthr]
    · simp [h.mem_timedOut, Semaphore.Pending, hthr]
    · simpa [Semaphore.Pending, hthr] using h.ready_ret t (by simpa [hthr] using hr)
    · simpa only [hlist] using hb
    · simpa only [hlist] using hf

/-- A woken waiter goes on with its permit; one that timed out puts `count` back first. -/
theorem SemOk.resume (ht : (s.wait.thr t).state = .ready) :
    SemOk n (semResume s t) (G.erase t) (T.erase t) ∧ (semResume s t).wait.list = s.wait.list ∧
      (semResume s t).count + (T.erase t).card = s.count + T.card := by
  obtain ⟨P, hP⟩ := h.wait
  obtain ⟨hok, hlist, hrun, hother⟩ := hP.resume ht
  have hb := h.balance
  have hf := h.free_nonneg
  rcases h.ready_ret t ht with hg | hto
  · have htG : t ∈ G := (h.mem_granted t).2 hg
    have htT : t ∉ T := by simp [h.mem_timedOut, Semaphore.Pending, hg.2]
    have hcard := Finset.card_erase_add_one htG
    have he : semResume s t = { s with
        wait := (waitQueueResume s.wait t).1
        taken := s.taken + 1 } := by
      cases hc : s.call t <;>
        simp [semResume, semWaitReturn, waitQueueResume, hg.2, hc, Semaphore.return]
    rw [he]
    refine ⟨h.frame t ⟨_, hok⟩ hother (fun _ _ => rfl) (fun u hu => by simp [hu])
      (fun u hu => by simp [hu]) (by simp [Semaphore.Pending, hrun])
      (by simp [Semaphore.Pending, hrun]) (fun hr => by simp [hrun] at hr)
      (fun hr => by simp [Semaphore.Pending, hrun] at hr) ?_ ?_ h.int_min h.fits, hlist,
      by simp [Finset.erase_eq_of_notMem htT]⟩
    · simp only [hlist, Finset.erase_eq_of_notMem htT]
      omega
    · simpa only [hlist, Finset.erase_eq_of_notMem htT] using hf
  · have htT : t ∈ T := (h.mem_timedOut t).2 hto
    have htG : t ∉ G := by simp [h.mem_granted, Semaphore.Pending, hto.2]
    have hcard := Finset.card_erase_add_one htT
    have hfits := h.fits
    have hmin := h.int_min
    have hint : int (s.count + 1) = s.count + 1 := int_of_fits (by omega) (by omega)
    have he : semResume s t = { s with
        wait := (waitQueueResume s.wait t).1
        count := s.count + 1 } := by
      simp [semResume, semWaitReturn, waitQueueResume, hto.2, h.timed t (.inr hto), hint]
    rw [he]
    refine ⟨h.frame t ⟨_, hok⟩ hother (fun _ _ => rfl) (fun u hu => by simp [hu])
      (fun u hu => by simp [hu]) (by simp [Semaphore.Pending, hrun])
      (by simp [Semaphore.Pending, hrun]) (fun hr => by simp [hrun] at hr)
      (fun hr => by simp [Semaphore.Pending, hrun] at hr) ?_ ?_ ?_ h.fits, hlist, ?_⟩
    · simp only [hlist, Finset.erase_eq_of_notMem htG]
      omega
    · simp only [hlist]
      omega
    · simp only
      omega
    · simp only
      omega

end

/-- A post wakes the head of the list when the count is negative and there is one,
and adds a free permit otherwise. -/
theorem semPost_cases (s : Semaphore) (hint : int (s.count + 1) = s.count + 1) :
    (∃ u l, s.wait.list = u :: l ∧ s.count + 1 ≤ 0 ∧ semPost s = { s with
        count := s.count + 1
        posts := s.posts + 1
        wait := (waitQueueWakeOne s.wait .noError).1 }) ∨
      ((s.wait.list = [] ∨ 0 ≤ s.count) ∧
        semPost s = { s with count := s.count + 1, posts := s.posts + 1 }) := by
  rcases em (s.count + 1 ≤ 0) with hc | hc
  · cases hl : s.wait.list with
    | nil => exact .inr ⟨.inl rfl, by simp [semPost, hint, waitQueueWakeOne_nil hl]⟩
    | cons u l => exact .inl ⟨u, l, rfl, hc, by simp [semPost, hint, hc]⟩
  · exact .inr ⟨.inr (by omega), by simp [semPost, hint, hc]⟩

theorem SemOk.int_succ (h : SemOk n s G T) (hfits : n + s.posts + 1 < 2 ^ 31) :
    int (s.count + 1) = s.count + 1 := by
  have hb := h.balance
  have hmin := h.int_min
  exact int_of_fits (by omega) (by omega)

theorem SemOk.post (h : SemOk n s G T) (hfits : n + s.posts + 1 < 2 ^ 31) :
    ∃ G', SemOk n (semPost s) G' T := by
  obtain ⟨P, hP⟩ := h.wait
  have hb := h.balance
  have hf := h.free_nonneg
  have hmin := h.int_min
  rcases semPost_cases s (h.int_succ hfits) with ⟨u, l, hl, hc, he⟩ | ⟨-, he⟩
  · obtain ⟨hok, hlist, -, -, hthr, hother⟩ := hP.wakeOne hl .noError
    have hblk : (s.wait.thr u).state = .blocked := (hP.mem_list u).1 (by simp [hl])
    have huG : u ∉ G := by simp [h.mem_granted, Semaphore.Pending, hblk]
    have hcard := Finset.card_insert_of_notMem huG
    rw [hl, List.length_cons] at hb hf
    rw [he]
    refine ⟨insert u G, h.frame u ⟨_, hok⟩ hother (fun _ _ => rfl) (fun v hv => by simp [hv])
      (fun _ _ => .rfl) (by simp [Semaphore.Pending, hthr]) ?_
      (fun _ => .inl (by simp [Semaphore.Pending, hthr])) (fun hr => h.timed u ?_) ?_ ?_ ?_ ?_⟩
    · simp [h.mem_timedOut, Semaphore.Pending, hthr, hblk]
    · simpa [Semaphore.Pending, hthr, hblk] using hr
    · simp only [hlist, hcard]
      push_cast at hb ⊢
      omega
    · simp only [hlist]
      omega
    · simp only
      omega
    · simp only
      omega
  · rw [he]
    refine ⟨G, h.wait, h.mem_granted, h.mem_timedOut, h.ready_ret, h.timed, ?_, ?_, ?_, ?_⟩ <;>
      simp only <;> omega

theorem infiniteTime_ne_zero : infiniteTime ≠ 0 := by decide

/-- The count has room: `n` and the posts stay below `2 ^ 31`, and so do the waiters. -/
def SemAct.Fits (n : ℕ) (s : Semaphore) : SemAct → Prop
  | .post => n + s.posts + 1 < 2 ^ 31
  | .wait _ | .timedwait _ _ => -2 ^ 31 < s.count
  | _ => True

variable {a : SemAct}

theorem SemOk.step (h : SemOk n s G T) (hfits : a.Fits n s) (hs : semStep s a = some s') :
    ∃ G' T', SemOk n s' G' T' := by
  cases a with
  | post =>
    cases hs
    obtain ⟨G', h'⟩ := h.post hfits
    exact ⟨G', T, h'⟩
  | wait t =>
    simp only [semStep, Option.ite_none_right_eq_some, Option.some.injEq] at hs
    obtain ⟨ht, rfl⟩ := hs
    exact ⟨G, T, h.block hfits ht (fun h0 => absurd h0 infiniteTime_ne_zero)
      fun hne => absurd rfl hne⟩
  | trywait t =>
    simp only [semStep, Option.ite_none_right_eq_some, Option.some.injEq] at hs
    obtain ⟨-, rfl⟩ := hs
    exact ⟨G, T, h.trywait⟩
  | timedwait t timeout =>
    simp only [semStep, Option.ite_none_right_eq_some, Option.some.injEq] at hs
    obtain ⟨ht, rfl⟩ := hs
    exact ⟨G, T, h.block hfits ht (fun _ => rfl) fun _ => rfl⟩
  | timer t =>
    simp only [semStep, Option.ite_none_right_eq_some, Option.some.injEq] at hs
    obtain ⟨ht, rfl⟩ := hs
    obtain ⟨T', h', -⟩ := h.timer t ht
    exact ⟨G, T', h'⟩
  | resume t =>
    simp only [semStep, Option.ite_none_right_eq_some, Option.some.injEq] at hs
    obtain ⟨ht, rfl⟩ := hs
    exact ⟨_, _, (h.resume ht).1⟩

/-- The invariant with its sets of pending threads left out. -/
def Semaphore.Ok (n : ℕ) (s : Semaphore) : Prop := ∃ G T, SemOk n s G T

/-! ### Permits -/

/-- The permits that are neither taken nor on their way to a woken thread. -/
noncomputable def Semaphore.free (s : Semaphore) : ℤ :=
  s.count + s.wait.list.length + {t | s.Pending .timedOut t}.ncard

/-- When no woken or timed-out waiter has still to run, a permit is left only if
nobody is blocked. -/
def NoStrandedPermit (n : ℕ) (s : Semaphore) : Prop :=
  (∀ t, (s.wait.thr t).state ≠ .ready) → s.taken < n + s.posts →
    ∀ t, (s.wait.thr t).state ≠ .blocked

/-- Nobody goes to sleep beside a free permit, one that a count of at most zero
hides because of timed-out waiters that have not run. -/
def SemAct.Prompt (s : Semaphore) : SemAct → Prop
  | .wait _ => s.count ≤ 0 → s.count + {t | s.Pending .timedOut t}.ncard ≤ 0
  | .timedwait _ timeout =>
    timeout ≠ 0 → s.count ≤ 0 → s.count + {t | s.Pending .timedOut t}.ncard ≤ 0
  | _ => True

theorem SemOk.ncard_timedOut (h : SemOk n s G T) : {t | s.Pending .timedOut t}.ncard = T.card := by
  have : {t | s.Pending .timedOut t} = (T : Set ℕ) := by
    ext t
    simp [h.mem_timedOut]
  rw [this, Set.ncard_coe_finset]

theorem SemOk.free_eq (h : SemOk n s G T) :
    s.free = s.count + s.wait.list.length + T.card := by
  rw [Semaphore.free, h.ncard_timedOut]

/-- Nobody is queued beside a free permit, hidden or not. -/
def Semaphore.Awake (s : Semaphore) : Prop := 0 < s.free → s.wait.list = []

theorem SemOk.noStrandedPermit (h : SemOk n s G T) (ha : s.Awake) : NoStrandedPermit n s := by
  intro hready hlt t ht
  obtain ⟨P, hP⟩ := h.wait
  have hG : G = ∅ := Finset.eq_empty_of_forall_notMem fun u hu =>
    hready u ((h.mem_granted u).1 hu).1
  have hfree := h.free_eq
  have hbal := h.balance
  rw [hG, Finset.card_empty] at hbal
  have hnil := ha (by omega)
  have hmem := (hP.mem_list t).2 ht
  simp [hnil] at hmem

/-- A wait that starts beside no hidden permit puts nobody to sleep beside one. -/
theorem SemOk.block_awake (h : SemOk n s G T) (ha : s.Awake) {c : SemCall} {timeout : ℕ}
    (hmin : -2 ^ 31 < s.count) (ht : (s.wait.thr t).state = .running) 
    (h0 : timeout = 0 → c = .timedwait) (hinf : timeout ≠ infiniteTime → c = .timedwait) :
    (semBlock s c t timeout).Awake ↔
      (timeout ≠ 0 → s.count ≤ 0 → s.count + {t | s.Pending .timedOut t}.ncard ≤ 0) := by
  have h' := h.block hmin ht h0 hinf
  rw [h.ncard_timedOut, Semaphore.Awake, h'.free_eq]
  rw [Semaphore.Awake, h.free_eq] at ha
  rcases semBlock_cases s c t timeout hmin h.count_lt h0 with
    ⟨hc, he⟩ | ⟨-, hz, he⟩ | ⟨hc, hne, w, hw, he⟩
  · rw [he]
    exact ⟨fun _ _ _ => by omega, fun _ _ => ha (by omega)⟩
  · rw [he]
    exact ⟨fun _ hz' => absurd hz hz', fun _ => ha⟩
  · obtain ⟨P, hP⟩ := h.wait
    obtain ⟨w', hw', -, hlist, -, -⟩ := hP.block ht hne
    obtain rfl : w = w' := Option.some.inj (hw.symm.trans hw')
    rw [he]
    simp only [hlist, List.length_append, List.length_singleton, List.append_eq_nil_iff,
      List.cons_ne_self, and_false]
    constructor
    · intro hawake _ _
      by_contra hlt
      exact hawake (by omega)
    · -- a free permit means an empty queue, and then the count shows it
      intro hp hpos
      have hnil := ha (by omega)
      have := hp hne (by omega)
      simp only [hnil, List.length_nil] at hpos
      omega

/-- A step from a state where nobody sleeps beside a free permit keeps it that
way exactly when it is prompt. -/
theorem SemOk.step_awake (h : SemOk n s G T) (ha : s.Awake) (hfits : a.Fits n s)
    (hs : semStep s a = some s') : s'.Awake ↔ a.Prompt s := by
  have hf := h.free_eq
  have hb := h.balance
  cases a with
  | post =>
    cases hs
    obtain ⟨G', h'⟩ := h.post hfits
    refine ⟨fun _ => trivial, fun _ hpos => ?_⟩
    rw [h'.free_eq] at hpos
    rcases semPost_cases s (h.int_succ hfits) with ⟨u, l, hl, hc, he⟩ | ⟨hl, he⟩
    · -- the count was negative with a waiter: no permit was free, and none is
      have hlist : (semPost s).wait.list = l := by
        simp [he, waitQueueWakeOne, hl]
      have hcount : (semPost s).count = s.count + 1 := by rw [he]
      rw [hl, List.length_cons] at hf
      rw [hlist, hcount] at hpos
      have := ha (by push_cast at hf; omega)
      simp [hl] at this
    · rcases hl with hl | hc
      · rw [he]
        exact hl
      · rw [he]
        by_contra hne
        have hlen : 0 < s.wait.list.length := List.length_pos_iff.2 hne
        exact hne (ha (by omega))
  | wait t =>
    simp only [semStep, Option.ite_none_right_eq_some, Option.some.injEq] at hs
    obtain ⟨ht, rfl⟩ := hs
    rw [semWait, h.block_awake ha hfits ht (fun h0 => absurd h0 infiniteTime_ne_zero)
      fun hne => absurd rfl hne]
    simp [SemAct.Prompt, infiniteTime_ne_zero]
  | trywait t =>
    simp only [semStep, Option.ite_none_right_eq_some, Option.some.injEq] at hs
    obtain ⟨-, rfl⟩ := hs
    refine ⟨fun _ => trivial, fun _ => ?_⟩
    rw [h.semTrywait_eq]
    split_ifs with hc
    · exact ha
    · exact fun _ => ha (by omega)
  | timedwait t timeout =>
    simp only [semStep, Option.ite_none_right_eq_some, Option.some.injEq] at hs
    obtain ⟨ht, rfl⟩ := hs
    exact h.block_awake ha hfits ht (fun _ => rfl) fun _ => rfl
  | timer t =>
    simp only [semStep, Option.ite_none_right_eq_some, Option.some.injEq] at hs
    obtain ⟨ht, rfl⟩ := hs
    obtain ⟨T', h', hnil⟩ := h.timer t ht
    have hb' := h'.balance
    refine ⟨fun _ => trivial, fun _ hpos => hnil (ha ?_)⟩
    rw [h'.free_eq] at hpos
    simp only at hb' hpos
    omega
  | resume t =>
    simp only [semStep, Option.ite_none_right_eq_some, Option.some.injEq] at hs
    obtain ⟨ht, rfl⟩ := hs
    obtain ⟨h', hlist, hsum⟩ := h.resume ht
    refine ⟨fun _ => trivial, fun _ hpos => hlist.trans (ha ?_)⟩
    rw [h'.free_eq, hlist] at hpos
    omega

theorem Semaphore.Ok.step (h : s.Ok n) (hfits : a.Fits n s)
    (hs : semStep s a = some s') : s'.Ok n := by
  obtain ⟨G, T, h⟩ := h
  exact h.step hfits hs

end Kernel
end LittleKernel
