/-
# The queues of the scheduler

Every thread of `Kernel/Thread.lean` is where its state says, after any sequence
of steps: `scheduler_queues`.

`Queues X` is the part of the invariant about the queues, up to the threads of
`X`, which are ready and not queued: a thread on its way from one queue to the
next, or the idle thread.  `Life` is the part about the threads themselves: who
is idle, whose timer may fire, whom a thread that was woken in `thread_join` was
waiting for, and that nobody waits for a thread that is dead, detached or gone.
The run queues change in `insert_in_run_queue_head`, `insert_in_run_queue_tail`
and `get_top_thread`, the wait queues in `wait_queue_block` and where a waiter is
taken off; each has one lemma, and every step is made of them.
-/

import LittleKernel.Kernel.Thread
import LittleKernel.Lib.Machine

namespace LittleKernel
namespace Kernel

open Machine Function

variable {s s' : Sched} {X X' : Set ℕ} {c : Option ℕ} {t : ℕ} {f : Thread → Thread}

@[simp] theorem modify_thread_self (s : Sched) (t : ℕ) (f : Thread → Thread) :
    (s.modify t f).thread t = f (s.thread t) := by
  simp [Sched.modify]

theorem modify_thread_ne (s : Sched) (f : Thread → Thread) {t u : ℕ} (h : u ≠ t) :
    (s.modify t f).thread u = s.thread u := by
  simp [Sched.modify, h]

@[simp] theorem modify_runQueue : (s.modify t f).runQueue = s.runQueue := rfl
@[simp] theorem modify_runQueueBitmap : (s.modify t f).runQueueBitmap = s.runQueueBitmap := rfl
@[simp] theorem modify_waitQueue : (s.modify t f).waitQueue = s.waitQueue := rfl
@[simp] theorem modify_threads : (s.modify t f).threads = s.threads := rfl
@[simp] theorem modify_current : (s.modify t f).current = s.current := rfl

/-! ## The queues -/

/-- The queues agree with the states of the threads, those of `X` being ready and
on no queue. -/
structure Queues (X : Set ℕ) (s : Sched) : Prop where
  run_mem : ∀ p t, t ∈ s.runQueue p ↔
    (s.thread t).state = .ready ∧ (s.thread t).priority = p ∧ t ∉ X
  run_nodup : ∀ p, (s.runQueue p).Nodup
  bitmap : ∀ p : Fin 32, s.runQueueBitmap.getLsbD p = true ↔ s.runQueue p ≠ []
  wait_mem : ∀ q t, t ∈ (s.waitQueue q).list ↔
    (s.thread t).state = .blocked ∧ (s.thread t).blockingWaitQueue = some q
  wait_nodup : ∀ q, (s.waitQueue q).list.Nodup
  count_eq : ∀ q, (s.waitQueue q).count = (s.waitQueue q).list.length
  blocked : ∀ t, (s.thread t).state = .blocked → ∃ q, (s.thread t).blockingWaitQueue = some q

/-- A change of one thread that leaves it where it is on the queues. -/
theorem Queues.modify (h : Queues X s) (hX : ∀ u, u ≠ t → (u ∈ X' ↔ u ∈ X))
    (hrun : ∀ p, ((f (s.thread t)).state = .ready ∧ (f (s.thread t)).priority = p ∧ t ∉ X') ↔
      ((s.thread t).state = .ready ∧ (s.thread t).priority = p ∧ t ∉ X))
    (hwait : ∀ q, ((f (s.thread t)).state = .blocked ∧
        (f (s.thread t)).blockingWaitQueue = some q) ↔
      ((s.thread t).state = .blocked ∧ (s.thread t).blockingWaitQueue = some q))
    (hblocked : (f (s.thread t)).state = .blocked →
      ∃ q, (f (s.thread t)).blockingWaitQueue = some q) : Queues X' (s.modify t f) where
  run_mem p u := by
    rcases eq_or_ne u t with rfl | hu
    · rw [modify_runQueue, h.run_mem, modify_thread_self, hrun]
    · rw [modify_runQueue, h.run_mem, modify_thread_ne _ _ hu, hX u hu]
  run_nodup := h.run_nodup
  bitmap := h.bitmap
  wait_mem q u := by
    rcases eq_or_ne u t with rfl | hu
    · rw [modify_waitQueue, h.wait_mem, modify_thread_self, hwait]
    · rw [modify_waitQueue, h.wait_mem, modify_thread_ne _ _ hu]
  wait_nodup := h.wait_nodup
  count_eq := h.count_eq
  blocked u := by
    rcases eq_or_ne u t with rfl | hu
    · rw [modify_thread_self]
      exact hblocked
    · rw [modify_thread_ne _ _ hu]
      exact h.blocked u

/-- Fields that do not say where the thread is queued. -/
theorem Queues.modify_frame (h : Queues X s) (hs : (f (s.thread t)).state = (s.thread t).state)
    (hp : (f (s.thread t)).priority = (s.thread t).priority)
    (hb : (f (s.thread t)).blockingWaitQueue = (s.thread t).blockingWaitQueue) :
    Queues X (s.modify t f) :=
  h.modify (fun _ _ => Iff.rfl) (by simp [hs, hp]) (by simp [hs, hb])
    fun hbl => by rw [hb]; exact h.blocked t (hs ▸ hbl)

/-- A thread that is on no queue and stays off them. -/
theorem Queues.modify_off (h : Queues X s) (hX : ∀ u, u ≠ t → (u ∈ X' ↔ u ∈ X))
    (hs : (s.thread t).state ≠ .blocked) (hs' : (f (s.thread t)).state ≠ .blocked)
    (hr : (s.thread t).state = .ready → t ∈ X)
    (hr' : (f (s.thread t)).state = .ready → t ∈ X') : Queues X' (s.modify t f) := by
  refine h.modify hX (fun p => ⟨fun hp => ?_, fun hp => ?_⟩) (fun q => ?_) fun hb => absurd hb hs'
  · exact absurd (hr' hp.1) hp.2.2
  · exact absurd (hr hp.1) hp.2.2
  · simp [hs, hs']

/-- The run queue of `p` holds `l` and its bit is set. -/
def Sched.withRun (s : Sched) (p : Fin 32) (l : List ℕ) : Sched :=
  { s with
    runQueue := update s.runQueue p l
    runQueueBitmap := s.runQueueBitmap ||| BitVec.twoPow 32 p }

variable {l : List ℕ}

/-- Queueing a ready thread, at either end. -/
theorem Queues.withRun (h : Queues X s) (hr : (s.thread t).state = .ready) (ht : t ∈ X)
    (hl : l.Perm (t :: s.runQueue (s.thread t).priority)) :
    Queues (X \ {t}) (s.withRun (s.thread t).priority l) where
  run_mem p u := by
    have hnot : t ∉ s.runQueue p := fun hm => ((h.run_mem p t).1 hm).2.2 ht
    rcases eq_or_ne p (s.thread t).priority with rfl | hp
    · simp only [Sched.withRun, update_self, hl.mem_iff, List.mem_cons, h.run_mem]
      rcases eq_or_ne u t with rfl | hu
      · simp [hr]
      · simp [hu]
    · simp only [Sched.withRun, update_of_ne hp, h.run_mem]
      rcases eq_or_ne u t with rfl | hu
      · simp [hp.symm]
      · simp [hu]
  run_nodup p := by
    have hnot : t ∉ s.runQueue p := fun hm => ((h.run_mem p t).1 hm).2.2 ht
    rcases eq_or_ne p (s.thread t).priority with rfl | hp
    · simp only [Sched.withRun, update_self, hl.nodup_iff, List.nodup_cons]
      exact ⟨hnot, h.run_nodup _⟩
    · simpa only [Sched.withRun, update_of_ne hp] using h.run_nodup p
  bitmap p := by
    rcases eq_or_ne p (s.thread t).priority with rfl | hp
    · have hne : l ≠ [] := fun hl0 => by simp [hl0] at hl
      simp [Sched.withRun, hne]
    · have hp' : p.val ≠ (s.thread t).priority.val := fun he => hp (Fin.ext he)
      simpa [Sched.withRun, update_of_ne hp, hp'] using h.bitmap p
  wait_mem := h.wait_mem
  wait_nodup := h.wait_nodup
  count_eq := h.count_eq
  blocked := h.blocked

theorem Queues.insertHead (h : Queues X s) (hr : (s.thread t).state = .ready) (ht : t ∈ X) :
    Queues (X \ {t}) (insertInRunQueueHead s t) := h.withRun hr ht (.refl _)

theorem Queues.insertTail (h : Queues X s) (hr : (s.thread t).state = .ready) (ht : t ∈ X) :
    Queues (X \ {t}) (insertInRunQueueTail s t) := h.withRun hr ht (List.perm_append_singleton _ _)

/-- Every bit that is set is looked at, so `get_top_thread` finds a thread where there is
one. -/
theorem topQueue_spec (h : Queues X s) : ∀ (k : ℕ) (hk : k ≤ 32),
    (topQueue s k hk = none ∧ ∀ p : Fin 32, p.val < k → s.runQueue p = []) ∨
    ∃ p t l, topQueue s k hk = some (p, t, l) ∧ s.runQueue p = t :: l
  | 0, _ => .inl ⟨rfl, fun p hp => absurd hp (Nat.not_lt_zero _)⟩
  | k + 1, hk => by
      have ih := topQueue_spec h k (by omega)
      have hb := h.bitmap ⟨k, hk⟩
      rw [topQueue]
      rcases hq : s.runQueue ⟨k, hk⟩ with _ | ⟨t, l⟩
      · -- an empty queue has no bit, so the loop goes on below it
        have hbit : s.runQueueBitmap.getLsbD k = false := by simpa [hq] using hb
        rw [if_neg (by simp [hbit])]
        refine ih.imp_left fun hnone => ⟨hnone.1, fun p hp => ?_⟩
        rcases Nat.lt_succ_iff_lt_or_eq.1 hp with hlt | heq
        · exact hnone.2 p hlt
        · rwa [show p = ⟨k, hk⟩ from Fin.ext heq]
      · have hbit : s.runQueueBitmap.getLsbD k = true := by simpa [hq] using hb
        rw [if_pos hbit]
        exact .inr ⟨_, t, l, rfl, hq⟩

/-- Taking the head off a run queue leaves it ready and unqueued. -/
theorem Queues.takeReady (h : Queues X s) {p : Fin 32} (hp : s.runQueue p = t :: l) :
    Queues (insert t X) (takeReady s p l) := by
  obtain ⟨hready, rfl, htX⟩ := (h.run_mem p t).1 (by simp [hp])
  have hnd := h.run_nodup (s.thread t).priority
  rw [hp, List.nodup_cons] at hnd
  refine ⟨fun p u => ?_, fun p => ?_, fun p => ?_, h.wait_mem, h.wait_nodup, h.count_eq, h.blocked⟩
  · have hmem := h.run_mem p u
    simp only [Kernel.takeReady, Set.mem_insert_iff, not_or]
    rcases eq_or_ne p (s.thread t).priority with rfl | hne
    · rcases eq_or_ne u t with rfl | hu
      · simp [hnd.1]
      · simpa [hp, hu] using hmem
    · rcases eq_or_ne u t with rfl | hu
      · simpa [hne, hne.symm] using hmem
      · simpa [hne, hu] using hmem
  · rcases eq_or_ne p (s.thread t).priority with rfl | hne
    · simpa [Kernel.takeReady] using hnd.2
    · simpa [Kernel.takeReady, hne] using h.run_nodup p
  · have hbit := h.bitmap p
    rcases eq_or_ne p (s.thread t).priority with rfl | hne
    · rcases l with _ | ⟨u, l⟩
      · simp [Kernel.takeReady]
      · simpa [Kernel.takeReady, hp] using hbit
    · have hne' : p.val ≠ (s.thread t).priority.val := fun he => hne (Fin.ext he)
      rcases l with _ | ⟨u, l⟩
      · simpa [Kernel.takeReady, hne, hne'] using hbit
      · simpa [Kernel.takeReady, hne] using hbit

/-- **`get_top_thread`** takes a ready thread off its run queue, or leaves the queues,
which are all empty, for the idle thread. -/
theorem getTopThread_spec (h : Queues X s) :
    (getTopThread s = (s, idleThread) ∧ ∀ p, s.runQueue p = []) ∨
    ∃ p t l, getTopThread s = (takeReady s p l, t) ∧ (s.thread t).state = .ready ∧ t ∉ X ∧
      Queues (insert t X) (takeReady s p l) := by
  rcases topQueue_spec h 32 le_rfl with ⟨hnone, hempty⟩ | ⟨p, t, l, hsome, hp⟩
  · exact .inl ⟨by rw [getTopThread, hnone], fun p => hempty p p.2⟩
  · obtain ⟨hready, -, htX⟩ := (h.run_mem p t).1 (by simp [hp])
    exact .inr ⟨p, t, l, by rw [getTopThread, hsome], hready, htX, h.takeReady hp⟩

variable {q : WaitQueueId}

/-- Blocking the thread `t`, which is on no queue, on `q`. -/
theorem Queues.block (h : Queues X s) (hs : (s.thread t).state = .running)
    (hs' : (f (s.thread t)).state = .blocked)
    (hq : (f (s.thread t)).blockingWaitQueue = some q) :
    Queues X (Sched.modify { s with
      waitQueue := update s.waitQueue q
        ⟨(s.waitQueue q).list ++ [t], (s.waitQueue q).count + 1⟩ } t f) where
  run_mem p u := by
    have hmem := h.run_mem p u
    rcases eq_or_ne u t with rfl | hu
    · simpa [hs, hs'] using hmem
    · simpa [modify_thread_ne _ _ hu] using hmem
  run_nodup := h.run_nodup
  bitmap := h.bitmap
  wait_mem q' u := by
    have hmem := h.wait_mem q' u
    rcases eq_or_ne q' q with rfl | hq'
    · rcases eq_or_ne u t with rfl | hu
      · simp [hs', hq]
      · simpa [modify_thread_ne _ _ hu, hu] using hmem
    · rcases eq_or_ne u t with rfl | hu
      · simpa [hq', hs', hq, hs, Ne.symm hq'] using hmem
      · simpa [modify_thread_ne _ _ hu, hq'] using hmem
  wait_nodup q' := by
    have hnot : t ∉ (s.waitQueue q').list := fun hm => by simpa [hs] using ((h.wait_mem q' t).1 hm).1
    rcases eq_or_ne q' q with rfl | hq'
    · simpa [List.nodup_append, h.wait_nodup q'] using fun u hu (he : u = t) => hnot (he ▸ hu)
    · simpa [hq'] using h.wait_nodup q'
  count_eq q' := by
    rcases eq_or_ne q' q with rfl | hq'
    · simp [h.count_eq]
    · simpa [hq'] using h.count_eq q'
  blocked u := by
    rcases eq_or_ne u t with rfl | hu
    · exact fun _ => ⟨q, by simpa using hq⟩
    · simpa [modify_thread_ne _ _ hu] using h.blocked u

/-- Taking the blocked thread `t` off its wait queue makes it ready and unqueued. -/
theorem Queues.unblock (h : Queues X s) (err : Status)
    (ht : t ∈ (s.waitQueue q).list) (hs' : s'.thread = s.thread)
    (hrun : s'.runQueue = s.runQueue) (hbits : s'.runQueueBitmap = s.runQueueBitmap)
    (hq : s'.waitQueue = update s.waitQueue q
      ⟨(s.waitQueue q).list.erase t, (s.waitQueue q).count - 1⟩) :
    Queues (insert t X) (s'.modify t (Thread.wake err)) := by
  obtain ⟨hb, hbq⟩ := (h.wait_mem q t).1 ht
  have hlen := List.length_erase_of_mem ht
  have hpos := List.length_pos_of_mem ht
  refine ⟨fun p u => ?_, by simpa [hrun] using h.run_nodup, by simpa [hrun, hbits] using h.bitmap,
    fun q' u => ?_, fun q' => ?_, fun q' => ?_, fun u => ?_⟩
  · have hmem := h.run_mem p u
    rcases eq_or_ne u t with rfl | hu
    · simpa [hrun, hs', hb] using hmem
    · simpa [hrun, modify_thread_ne _ _ hu, hs', hu] using hmem
  · have hmem := h.wait_mem q' u
    rcases eq_or_ne u t with rfl | hu
    · rcases eq_or_ne q' q with rfl | hq'
      · simp [hq, (h.wait_nodup q').mem_erase_iff, Thread.wake]
      · simpa [hq, hq', hbq, Ne.symm hq', Thread.wake] using hmem
    · rcases eq_or_ne q' q with rfl | hq'
      · simpa [hq, modify_thread_ne _ _ hu, hs', (h.wait_nodup q').mem_erase_iff, hu] using hmem
      · simpa [hq, hq', modify_thread_ne _ _ hu, hs'] using hmem
  · rcases eq_or_ne q' q with rfl | hq'
    · simpa [hq] using (h.wait_nodup q').erase t
    · simpa [hq, hq'] using h.wait_nodup q'
  · rcases eq_or_ne q' q with rfl | hq'
    · simp only [modify_waitQueue, hq, update_self, h.count_eq, hlen]
      omega
    · simpa [hq, hq'] using h.count_eq q'
  · rcases eq_or_ne u t with rfl | hu
    · simp [Thread.wake]
    · simpa [modify_thread_ne _ _ hu, hs'] using h.blocked u

/-! ## The threads -/

/-- What holds of the structure of thread `t`, when the threads of `dead` are dead. -/
structure LifeAt (dead : ℕ → Prop) (t : ℕ) (th : Thread) : Prop where
  idle : th.idle = true → t = idleThread
  zero : t = idleThread → th.state = .running ∨ th.state = .ready
  timer : th.timer = some .threadSleepHandler → th.state = .sleeping
  blocked : th.state = .blocked → ∀ u, th.resume = .join u →
    th.blockingWaitQueue = some (.retcode u)
  woken : th.state ≠ .blocked → ∀ u, th.resume = .join u → th.waitQueueBlockRet = .noError →
    dead u
  magic : th.magic = false → th.state = .death

theorem LifeAt.mono {dead dead' : ℕ → Prop} {th : Thread} (h : LifeAt dead t th)
    (hd : ∀ u, dead u → dead' u) : LifeAt dead' t th :=
  { h with woken := fun hb u hu hr => hd u (h.woken hb u hu hr) }

/-- Thread `u` has gone through `thread_exit`. -/
def Dead (s : Sched) (u : ℕ) : Prop := (s.thread u).state = .death

/-- The threads that have been made are as `LifeAt` says, and nobody waits for a
thread that is dead, detached or not there; a thread in `thread_exit` is dead before
it has woken those that wait for it. -/
structure Life (s : Sched) : Prop where
  pos : 0 < s.threads
  lifeAt : ∀ t < s.threads, LifeAt (Dead s) t (s.thread t)
  blank : ∀ t, s.threads ≤ t → s.thread t = Thread.blank
  retcode : ∀ t, (Dead s t ∧ t ≠ s.current) ∨ (s.thread t).detached = true ∨ s.threads ≤ t →
    (s.waitQueue (.retcode t)).list = []

theorem Life.lt_of_state (h : Life s) (ht : (s.thread t).state ≠ .suspended) : t < s.threads := by
  by_contra hlt
  simp [h.blank t (Nat.not_lt.1 hlt), Thread.blank, Thread.create] at ht

theorem Life.lt_of_magic (h : Life s) (ht : (s.thread t).magic = true) : t < s.threads := by
  by_contra hlt
  simp [h.blank t (Nat.not_lt.1 hlt), Thread.blank] at ht

theorem Life.modify (h : Life s) (ht : t < s.threads)
    (hdead : Dead s t → (f (s.thread t)).state = .death) (hat : LifeAt (Dead s) t (f (s.thread t)))
    (hret : ((f (s.thread t)).state = .death ∧ t ≠ s.current) ∨ (f (s.thread t)).detached = true →
      (s.waitQueue (.retcode t)).list = []) : Life (s.modify t f) := by
  have hmono : ∀ u, Dead s u → Dead (s.modify t f) u := by
    intro u hu
    rcases eq_or_ne u t with rfl | hne
    · simpa [Dead] using hdead hu
    · simpa [Dead, modify_thread_ne _ _ hne] using hu
  refine ⟨h.pos, fun u hu => ?_, fun u hu => ?_, fun u hu => ?_⟩
  · rcases eq_or_ne u t with rfl | hne
    · simpa using hat.mono hmono
    · simpa [modify_thread_ne _ _ hne] using (h.lifeAt u hu).mono hmono
  · rw [modify_thread_ne _ _ (by simp at hu; omega)]
    exact h.blank u hu
  · rcases eq_or_ne u t with rfl | hne
    · rw [modify_waitQueue]
      rcases hu with hu | hu | hu
      · exact hret (.inl ⟨by simpa [Dead] using hu.1, hu.2⟩)
      · exact hret (.inr (by simpa using hu))
      · exact absurd ht (Nat.not_lt.2 hu)
    · exact h.retcode u (by simpa [Dead, modify_thread_ne _ _ hne] using hu)

/-- A change of the queues alone, with no new waiter where none may be. -/
theorem Life.of_thread_eq (h : Life s) (hthr : s'.thread = s.thread) (hn : s'.threads = s.threads)
    (hc : s'.current = s.current)
    (hq : ∀ t, (Dead s t ∧ t ≠ s.current) ∨ (s.thread t).detached = true ∨ s.threads ≤ t →
      (s'.waitQueue (.retcode t)).list = []) : Life s' := by
  have hd : Dead s' = Dead s := by
    funext u
    simp [Dead, hthr]
  refine ⟨hn ▸ h.pos, fun t ht => ?_, fun t ht => ?_, fun t ht => hq t ?_⟩
  · rw [hd, hthr]
    exact h.lifeAt t (hn ▸ ht)
  · rw [hthr]
    exact h.blank t (hn ▸ ht)
  · rwa [hd, hthr, hn, hc] at ht

/-! ## One thread runs -/

/-- The queues and the threads are in order, and `c` is the thread that runs, if any. -/
structure Good (X : Set ℕ) (c : Option ℕ) (s : Sched) : Prop where
  queues : Queues X s
  life : Life s
  running : ∀ t, (s.thread t).state = .running ↔ c = some t

variable {c' : Option ℕ}

/-- A change of a thread that is on no queue and stays off them. -/
theorem Good.modify_off (h : Good X c s) (ht : t < s.threads)
    (hX : ∀ u, u ≠ t → (u ∈ X' ↔ u ∈ X)) (hc : ∀ u, u ≠ t → (c' = some u ↔ c = some u))
    (hs : (s.thread t).state ≠ .blocked) (hr : (s.thread t).state = .ready → t ∈ X)
    (hs' : (f (s.thread t)).state ≠ .blocked) (hr' : (f (s.thread t)).state = .ready → t ∈ X')
    (hrun : (f (s.thread t)).state = .running ↔ c' = some t)
    (hdead : Dead s t → (f (s.thread t)).state = .death) (hat : LifeAt (Dead s) t (f (s.thread t)))
    (hret : ((f (s.thread t)).state = .death ∧ t ≠ s.current) ∨ (f (s.thread t)).detached = true →
      (s.waitQueue (.retcode t)).list = []) : Good X' c' (s.modify t f) := by
  refine ⟨h.queues.modify_off hX hs hs' hr hr', h.life.modify ht hdead hat hret, fun u => ?_⟩
  rcases eq_or_ne u t with rfl | hne
  · rw [modify_thread_self, hrun]
  · rw [modify_thread_ne _ _ hne, h.running, hc u hne]

/-- Fields that say neither where the thread is queued nor what `Life` is about. -/
theorem Good.modify_frame (h : Good X c s) (ht : t < s.threads)
    (hs : (f (s.thread t)).state = (s.thread t).state)
    (hp : (f (s.thread t)).priority = (s.thread t).priority)
    (hb : (f (s.thread t)).blockingWaitQueue = (s.thread t).blockingWaitQueue)
    (hat : LifeAt (Dead s) t (f (s.thread t)))
    (hret : ((f (s.thread t)).state = .death ∧ t ≠ s.current) ∨ (f (s.thread t)).detached = true →
      (s.waitQueue (.retcode t)).list = []) : Good X c (s.modify t f) := by
  refine ⟨h.queues.modify_frame hs hp hb, h.life.modify ht (fun hd => hs.trans hd) hat hret,
    fun u => ?_⟩
  rcases eq_or_ne u t with rfl | hne
  · rw [modify_thread_self, hs, h.running]
  · rw [modify_thread_ne _ _ hne, h.running]

theorem Good.insertHead (h : Good X c s) (hr : (s.thread t).state = .ready) (ht : t ∈ X) :
    Good (X \ {t}) c (insertInRunQueueHead s t) :=
  ⟨h.queues.insertHead hr ht, h.life.of_thread_eq rfl rfl rfl h.life.retcode, h.running⟩

theorem Good.insertTail (h : Good X c s) (hr : (s.thread t).state = .ready) (ht : t ∈ X) :
    Good (X \ {t}) c (insertInRunQueueTail s t) :=
  ⟨h.queues.insertTail hr ht, h.life.of_thread_eq rfl rfl rfl h.life.retcode, h.running⟩

/-- Only the idle thread is ready without being queued. -/
def IdleOnly (X : Set ℕ) (s : Sched) : Prop := ∀ t ∈ X, t = idleThread ∧ (s.thread t).idle = true

/-- The state between two steps with `c` running. -/
def Stable (c : Option ℕ) (s : Sched) : Prop := ∃ X, Good X c s ∧ IdleOnly X s

/-- **The invariant of the scheduler.** -/
def Inv (s : Sched) : Prop := Stable (some s.current) s

theorem Stable.modify_frame (h : Stable c s) (ht : t < s.threads)
    (hs : (f (s.thread t)).state = (s.thread t).state)
    (hp : (f (s.thread t)).priority = (s.thread t).priority)
    (hb : (f (s.thread t)).blockingWaitQueue = (s.thread t).blockingWaitQueue)
    (hi : (f (s.thread t)).idle = (s.thread t).idle) (hat : LifeAt (Dead s) t (f (s.thread t)))
    (hret : ((f (s.thread t)).state = .death ∧ t ≠ s.current) ∨ (f (s.thread t)).detached = true →
      (s.waitQueue (.retcode t)).list = []) : Stable c (s.modify t f) := by
  obtain ⟨X, hg, hX⟩ := h
  refine ⟨X, hg.modify_frame ht hs hp hb hat hret, fun u hu => ?_⟩
  rcases eq_or_ne u t with rfl | hne
  · simpa [hi] using hX u hu
  · simpa [modify_thread_ne _ _ hne] using hX u hu

/-- The current thread changes, nobody waiting for the old one if it is dead. -/
theorem Stable.withCurrent (h : Stable c s)
    (hcur : Dead s s.current → (s.waitQueue (.retcode s.current)).list = []) (n : ℕ) :
    Stable c { s with current := n } := by
  obtain ⟨X, ⟨hq, hl, hr⟩, hX⟩ := h
  refine ⟨X, ⟨⟨hq.run_mem, hq.run_nodup, hq.bitmap, hq.wait_mem, hq.wait_nodup, hq.count_eq,
    hq.blocked⟩, ⟨hl.pos, hl.lifeAt, hl.blank, fun t ht => ?_⟩, hr⟩, hX⟩
  rcases eq_or_ne t s.current with rfl | hne
  · rcases ht with ht | ht
    · exact hcur ht.1
    · exact hl.retcode _ (.inr ht)
  · exact hl.retcode t (ht.imp_left fun hd => ⟨hd.1, hne⟩)

theorem Stable.life (h : Stable c s) : Life s := h.choose_spec.1.life

theorem Stable.running (h : Stable c s) (t : ℕ) : (s.thread t).state = .running ↔ c = some t :=
  h.choose_spec.1.running t

theorem Inv.current_running (h : Inv s) : (s.thread s.current).state = .running :=
  (Stable.running h _).2 rfl

theorem Inv.current_lt (h : Inv s) : s.current < s.threads :=
  (Stable.life h).lt_of_state (by simp [h.current_running])

/-- A dead thread is torn down. -/
theorem threadTeardown_stable (h : Stable c s) (ht : Dead s t) (hs : threadTeardown s t = some s') :
    Stable c s' := by
  unfold threadTeardown at hs
  split_ifs at hs with hm
  cases hs
  have hlt := h.life.lt_of_magic hm
  have hat := h.life.lifeAt t hlt
  exact h.modify_frame hlt rfl rfl rfl rfl { hat with magic := fun _ => ht }
    fun hd => h.life.retcode t (hd.imp_right .inl)

theorem threadTeardown_current (hs : threadTeardown s t = some s') : s'.current = s.current := by
  unfold threadTeardown at hs
  split_ifs at hs
  exact (Option.some.inj hs) ▸ rfl

/-- **The thread switched to finishes its call.** -/
theorem afterResched_inv (h : Inv s) (hs : afterResched s = some s') : Inv s' := by
  have hlt := h.current_lt
  have hat := (Stable.life h).lifeAt _ hlt
  have hrun := h.current_running
  have hfin : Inv (s.modify s.current fun th => { th with timer := none, resume := .unlock }) := by
    refine Stable.modify_frame h hlt rfl rfl rfl rfl ?_ fun hd => ?_
    · exact { hat with
        timer := by simp
        blocked := by simp
        woken := by simp }
    · exact (Stable.life h).retcode _ (hd.imp_right .inl)
  unfold afterResched at hs
  cases hr : (s.thread s.current).resume with
  | unlock =>
    simp only [hr] at hs
    exact Option.some.inj hs ▸ h
  | block =>
    simp only [hr] at hs
    exact Option.some.inj hs ▸ hfin
  | join t =>
    simp only [hr] at hs
    split_ifs at hs with hret
    · have hdead : Dead s t := hat.woken (by simp [hrun]) t hr hret
      have hdead' : Dead (s.modify s.current fun th =>
          { th with timer := none, resume := .unlock }) t := by
        rcases eq_or_ne t s.current with rfl | hne
        · simp [Dead, hrun] at hdead
        · simpa [Dead, modify_thread_ne _ _ hne] using hdead
      rw [Inv, threadTeardown_current hs]
      exact threadTeardown_stable hfin hdead' hs
    · exact Option.some.inj hs ▸ hfin

/-- A ready thread that is on no queue is run. -/
theorem Good.run (h : Good X none s) (hr : (s.thread t).state = .ready) (ht : t ∈ X) :
    Good (X \ {t}) (some t) (s.modify t fun th => { th with state := .running }) := by
  have hlt := h.life.lt_of_state (t := t) (by simp [hr])
  have hat := h.life.lifeAt t hlt
  refine h.modify_off hlt (fun u hu => by simp [hu]) (fun u hu => by simp [Ne.symm hu])
    (by simp [hr]) (fun _ => ht) (by simp) (by simp) (by simp) (fun hd => by simp [Dead, hr] at hd)
    ?_ fun hd => ?_
  · exact { hat with
      zero := fun _ => .inl rfl
      timer := fun htm => by simp [hat.timer htm] at hr
      blocked := by simp
      woken := fun _ => hat.woken (by simp [hr])
      magic := fun hm => by simp [hat.magic hm] at hr }
  · exact h.life.retcode t (.inr (.inl (by simpa using hd)))

/-- The thread that `thread_resched` picks runs. -/
theorem getTopThread_stable (h : Stable none s) :
    Stable (some (getTopThread s).2)
      ((getTopThread s).1.modify (getTopThread s).2 fun th => { th with state := .running }) := by
  obtain ⟨X, hg, hX⟩ := h
  rcases getTopThread_spec hg.queues with ⟨heq, hempty⟩ | ⟨p, t, l, heq, hready, htX, hq⟩
  · -- no thread is queued: the idle thread is ready, so it is the one of `X`
    rw [heq]
    have hzero := (hg.life.lifeAt idleThread hg.life.pos).zero rfl
    have hready : (s.thread idleThread).state = .ready :=
      hzero.resolve_left fun hr => by simpa using (hg.running _).1 hr
    have hmem : idleThread ∈ X := by
      by_contra hn
      have := (hg.queues.run_mem (s.thread idleThread).priority idleThread).2 ⟨hready, rfl, hn⟩
      simp [hempty] at this
    refine ⟨_, hg.run hready hmem, fun u hu => ?_⟩
    exact absurd (hX u hu.1).1 hu.2
  · rw [heq]
    have hg' : Good (insert t X) none (takeReady s p l) :=
      ⟨hq, hg.life.of_thread_eq rfl rfl rfl hg.life.retcode, hg.running⟩
    refine ⟨_, hg'.run hready (Set.mem_insert _ _), fun u hu => ?_⟩
    have hne : u ≠ t := fun he => hu.2 he
    simpa [modify_thread_ne _ _ hne, takeReady] using hX u ((Set.mem_insert_iff.1 hu.1).resolve_left hne)

theorem getTopThread_frame (s : Sched) : (getTopThread s).1.thread = s.thread ∧
    (getTopThread s).1.current = s.current ∧ (getTopThread s).1.waitQueue = s.waitQueue := by
  unfold getTopThread
  split <;> exact ⟨rfl, rfl, rfl⟩

/-- **`thread_resched`** from a state in which no thread runs. -/
theorem threadResched_inv (h : Stable none s)
    (hdead : Dead s s.current → (s.waitQueue (.retcode s.current)).list = [])
    (hs : threadResched s = some s') : Inv s' := by
  have h₁ := getTopThread_stable h
  obtain ⟨hthr, hcur, hwait⟩ := getTopThread_frame s
  unfold threadResched at hs
  dsimp only at hs
  split_ifs at hs with heq
  · refine afterResched_inv ?_ hs
    rw [Inv, modify_current, hcur, ← heq]
    exact h₁
  · refine afterResched_inv ?_ hs
    have hlt := h₁.life.lt_of_state (t := (getTopThread s).2) (by simp)
    have hat := h₁.life.lifeAt _ hlt
    refine Stable.withCurrent (Stable.modify_frame h₁ hlt rfl rfl rfl rfl { hat with } ?_) ?_ _
    · intro hd
      exact h₁.life.retcode _ (hd.imp_right .inl)
    · have hne : s.current ≠ (getTopThread s).2 := Ne.symm heq
      simpa [Dead, hcur, hwait, hthr, modify_thread_ne _ _ hne] using hdead

/-! ## The steps -/

/-- What `Life` asks of a thread made ready that neither waited nor died. -/
theorem LifeAt.toReady {dead : ℕ → Prop} {th th' : Thread} (h : LifeAt dead t th)
    (hb : th.state ≠ .blocked) (hd : th.state ≠ .death) (hs : th'.state = .ready)
    (hi : th'.idle = true → t = idleThread) (hr : th'.resume = th.resume)
    (hw : th'.waitQueueBlockRet = th.waitQueueBlockRet) (hm : th'.magic = th.magic)
    (ht : th'.timer ≠ some .threadSleepHandler) : LifeAt dead t th' where
  idle := hi
  zero _ := .inr hs
  timer h' := absurd h' ht
  blocked h' := by simp [hs] at h'
  woken _ u hu hn := h.woken hb u (hr ▸ hu) (hw ▸ hn)
  magic h' := absurd (h.magic (hm ▸ h')) hd

/-- Changing a thread that is queued next concerns no unqueued one. -/
theorem IdleOnly.enqueue (h : IdleOnly X s) : IdleOnly (insert t X \ {t}) (s.modify t f) := by
  intro u hu
  have hne : u ≠ t := fun he => hu.2 he
  rw [modify_thread_ne _ _ hne]
  exact h u ((Set.mem_insert_iff.1 hu.1).resolve_left hne)

section Enqueue

variable (ht : t < s.threads)
    (hc : ∀ u, u ≠ t → (c' = some u ↔ c = some u)) (hct : c' ≠ some t)
    (hb : (s.thread t).state ≠ .blocked) (hr : (s.thread t).state ≠ .ready)
    (hd : (s.thread t).state ≠ .death) (hf : (f (s.thread t)).state = .ready)
    (hdet : (f (s.thread t)).detached = (s.thread t).detached)
    (hat : LifeAt (Dead s) t (f (s.thread t)))
include ht hc hct hb hr hd hf hdet hat

/-- **A thread on no queue is made ready and queued**, at either end. -/
theorem Good.enqueue (h : Good X c s) :
    Good (insert t X \ {t}) c' (insertInRunQueueHead (s.modify t f) t) ∧
      Good (insert t X \ {t}) c' (insertInRunQueueTail (s.modify t f) t) := by
  have hg : Good (insert t X) c' (s.modify t f) := by
    refine h.modify_off ht (fun u hu => by simp [hu]) hc hb (fun h' => absurd h' hr) (by simp [hf])
      (fun _ => Set.mem_insert _ _) (by simp [hf, hct]) (fun h' => absurd h' hd) hat fun h' => ?_
    exact h.life.retcode t (.inr (.inl (by simpa [hf, hdet] using h')))
  have hready : ((s.modify t f).thread t).state = .ready := by simpa using hf
  exact ⟨hg.insertHead hready (Set.mem_insert _ _), hg.insertTail hready (Set.mem_insert _ _)⟩

theorem Stable.enqueue (h : Stable c s) :
    Stable c' (insertInRunQueueHead (s.modify t f) t) := by
  obtain ⟨X, hg, hX⟩ := h
  exact ⟨_, (hg.enqueue ht hc hct hb hr hd hf hdet hat).1, hX.enqueue⟩

end Enqueue

/-- The running thread is made ready and queued. -/
theorem Good.enqueue_running (h : Good X (some t) s) (hf : (f (s.thread t)).state = .ready)
    (hi : (f (s.thread t)).idle = (s.thread t).idle)
    (hres : (f (s.thread t)).resume = (s.thread t).resume)
    (hw : (f (s.thread t)).waitQueueBlockRet = (s.thread t).waitQueueBlockRet)
    (hm : (f (s.thread t)).magic = (s.thread t).magic)
    (htm : (f (s.thread t)).timer = (s.thread t).timer)
    (hdet : (f (s.thread t)).detached = (s.thread t).detached) :
    Good (insert t X \ {t}) none (insertInRunQueueHead (s.modify t f) t) ∧
      Good (insert t X \ {t}) none (insertInRunQueueTail (s.modify t f) t) := by
  have hrun := (h.running t).2 rfl
  have hlt := h.life.lt_of_state (t := t) (by simp [hrun])
  have hat := h.life.lifeAt _ hlt
  refine h.enqueue hlt (fun u hu => by simp [Ne.symm hu]) (by simp) (by simp [hrun])
    (by simp [hrun]) (by simp [hrun]) hf hdet ?_
  refine hat.toReady (by simp [hrun]) (by simp [hrun]) hf (fun h' => hat.idle (hi ▸ h')) hres hw hm ?_
  intro h'
  simp [hat.timer (htm ▸ h')] at hrun

theorem Inv.enqueue (h : Inv s) (hf : (f (s.thread s.current)).state = .ready)
    (hi : (f (s.thread s.current)).idle = (s.thread s.current).idle)
    (hres : (f (s.thread s.current)).resume = (s.thread s.current).resume)
    (hw : (f (s.thread s.current)).waitQueueBlockRet = (s.thread s.current).waitQueueBlockRet)
    (hm : (f (s.thread s.current)).magic = (s.thread s.current).magic)
    (htm : (f (s.thread s.current)).timer = (s.thread s.current).timer)
    (hdet : (f (s.thread s.current)).detached = (s.thread s.current).detached) :
    Stable none (insertInRunQueueHead (s.modify s.current f) s.current) ∧
      Stable none (insertInRunQueueTail (s.modify s.current f) s.current) := by
  obtain ⟨X, hg, hX⟩ := h
  have h' := hg.enqueue_running hf hi hres hw hm htm hdet
  exact ⟨⟨_, h'.1, hX.enqueue⟩, ⟨_, h'.2, hX.enqueue⟩⟩

/-- After the current thread has been made ready, `thread_resched` is in order. -/
theorem threadResched_ready (h : Stable none s) (hr : (s.thread s.current).state ≠ .death)
    (hs : threadResched s = some s') : Inv s' :=
  threadResched_inv h (fun hd => absurd hd hr) hs

section

variable (h : Inv s)
include h

theorem threadResume_inv (hm : (s.thread t).magic = true) : Inv (threadResume s t) := by
  unfold threadResume
  split_ifs with hs
  · have hlt := (Stable.life h).lt_of_magic hm
    have hat := (Stable.life h).lifeAt _ hlt
    have hne : t ≠ s.current := fun he => by simp [he ▸ h.current_running] at hs
    refine Stable.enqueue hlt (fun _ _ => Iff.rfl) (fun he => hne (Option.some.inj he).symm) (by simp [hs])
      (by simp [hs]) (by simp [hs]) rfl rfl ?_ h
    refine hat.toReady (by simp [hs]) (by simp [hs]) rfl hat.idle rfl rfl rfl ?_
    intro h'
    simp [hat.timer h'] at hs
  · exact h

/-- The idle thread gives up the processor: it is ready and not queued. -/
theorem Inv.idle_ready (hi : (s.thread s.current).idle = true)
    (hf : (f (s.thread s.current)).state = .ready) (hfi : (f (s.thread s.current)).idle = true)
    (hat : LifeAt (Dead s) s.current (f (s.thread s.current)))
    (hdet : (f (s.thread s.current)).detached = (s.thread s.current).detached) :
    Stable none (s.modify s.current f) := by
  have hrun := h.current_running
  have hlt := h.current_lt
  have hzero := ((Stable.life h).lifeAt _ hlt).idle hi
  obtain ⟨X, hg, hX⟩ := h
  refine ⟨insert s.current X, hg.modify_off hlt (fun u hu => by simp [hu])
    (fun u hu => by simp [Ne.symm hu]) (by simp [hrun]) (by simp [hrun]) (by simp [hf])
    (fun _ => Set.mem_insert _ _) (by simp [hf]) (by simp [Dead, hrun]) hat fun h' => ?_,
    fun u hu => ?_⟩
  · exact hg.life.retcode _ (.inr (.inl (by simpa [hf, hdet] using h')))
  · rcases eq_or_ne u s.current with rfl | hne
    · exact ⟨hzero, by simpa using hfi⟩
    · rw [modify_thread_ne _ _ hne]
      exact hX u ((Set.mem_insert_iff.1 hu).resolve_left hne)

theorem threadYield_inv (hs : threadYield s = some s') : Inv s' := by
  have hrun := h.current_running
  have hat := (Stable.life h).lifeAt _ h.current_lt
  unfold threadYield at hs
  dsimp only at hs
  split_ifs at hs with hi
  · refine threadResched_ready (h.idle_ready hi rfl hi ?_ rfl) (by simp) hs
    exact hat.toReady (by simp [hrun]) (by simp [hrun]) rfl hat.idle rfl rfl rfl
      fun h' => by simp [hat.timer h'] at hrun
  · refine threadResched_ready (h.enqueue rfl rfl rfl rfl rfl rfl rfl).2 ?_ hs
    simp [insertInRunQueueTail]

theorem threadPreempt_inv (hs : threadPreempt s = some s') : Inv s' := by
  have hrun := h.current_running
  have hat := (Stable.life h).lifeAt _ h.current_lt
  unfold threadPreempt at hs
  dsimp only at hs
  split_ifs at hs with hi hq
  · refine threadResched_ready (h.idle_ready hi rfl hi ?_ rfl) (by simp) hs
    exact hat.toReady (by simp [hrun]) (by simp [hrun]) rfl hat.idle rfl rfl rfl
      fun h' => by simp [hat.timer h'] at hrun
  · refine threadResched_ready (h.enqueue rfl rfl rfl rfl rfl rfl rfl).1 ?_ hs
    simp [insertInRunQueueHead]
  · refine threadResched_ready (h.enqueue rfl rfl rfl rfl rfl rfl rfl).2 ?_ hs
    simp [insertInRunQueueTail]

theorem threadTimerTick_inv : Inv (threadTimerTick s) := by
  have hat := (Stable.life h).lifeAt _ h.current_lt
  unfold threadTimerTick
  dsimp only
  split_ifs
  · exact h
  · exact Stable.modify_frame h h.current_lt rfl rfl rfl rfl { hat with }
      fun hd => (Stable.life h).retcode _ (hd.imp_right .inl)

theorem threadSetRealTime_inv (hm : (s.thread t).magic = true) :
    Inv (threadSetRealTime s t) := by
  have hlt := (Stable.life h).lt_of_magic hm
  have hat := (Stable.life h).lifeAt _ hlt
  exact Stable.modify_frame h hlt rfl rfl rfl rfl { hat with }
    fun hd => (Stable.life h).retcode _ (hd.imp_right .inl)

/-- The current thread stops running without being queued: it sleeps or dies. -/
theorem Inv.leave (hb : (f (s.thread s.current)).state ≠ .blocked)
    (hr : (f (s.thread s.current)).state ≠ .ready) (hrun : (f (s.thread s.current)).state ≠ .running)
    (hne : s.current ≠ idleThread) (hat : LifeAt (Dead s) s.current (f (s.thread s.current)))
    (hdet : (f (s.thread s.current)).detached = (s.thread s.current).detached) :
    Stable none (s.modify s.current f) := by
  have hcur := h.current_running
  have hlt := h.current_lt
  obtain ⟨X, hg, hX⟩ := h
  refine ⟨X, hg.modify_off hlt (fun _ _ => Iff.rfl) (fun u hu => by simp [Ne.symm hu])
    (by simp [hcur]) (by simp [hcur]) hb (fun h' => absurd h' hr) (by simp [hrun])
    (by simp [Dead, hcur]) hat fun h' => ?_, fun u hu => ?_⟩
  · exact hg.life.retcode _ (.inr (.inl (by simpa [hdet] using h')))
  · have hu0 := hX u hu
    rw [modify_thread_ne _ _ fun he : u = s.current => hne (he ▸ hu0.1)]
    exact hu0

theorem threadSleep_inv (hne : s.current ≠ idleThread) (hs : threadSleep s = some s') :
    Inv s' := by
  have hrun := h.current_running
  have hat := (Stable.life h).lifeAt _ h.current_lt
  refine threadResched_ready (h.leave (by simp) (by simp) (by simp) hne ?_ rfl) (by simp) hs
  exact { hat with
    zero := fun h0 => absurd h0 hne
    timer := fun _ => rfl
    blocked := by simp
    woken := fun _ => hat.woken (by simp [hrun])
    magic := fun hm => by simp [hat.magic hm] at hrun }

theorem threadSleepHandler_inv (ht : (s.thread t).timer = some .threadSleepHandler) :
    Inv (threadSleepHandler s t) := by
  have hlt : t < s.threads := by
    by_contra hlt
    simp [(Stable.life h).blank t (Nat.not_lt.1 hlt), Thread.blank, Thread.create] at ht
  have hat := (Stable.life h).lifeAt _ hlt
  have hs := hat.timer ht
  have hne : t ≠ s.current := fun he => by simp [he ▸ h.current_running] at hs
  refine Stable.enqueue hlt (fun _ _ => Iff.rfl) (fun he => hne (Option.some.inj he).symm) (by simp [hs])
    (by simp [hs]) (by simp [hs]) rfl rfl ?_ h
  exact hat.toReady (by simp [hs]) (by simp [hs]) rfl hat.idle rfl rfl rfl (by simp)

theorem threadSetPriority_inv {priority : ℤ} (hs : threadSetPriority s priority = some s') :
    Inv s' := by
  refine threadResched_ready (h.enqueue rfl rfl rfl rfl rfl rfl rfl).1 ?_ hs
  simp [insertInRunQueueHead]

theorem threadBecomeIdle_inv (h0 : s.current = idleThread)
    (hs : threadBecomeIdle s = some s') : Inv s' := by
  have hrun := h.current_running
  have hlt := h.current_lt
  have hat := (Stable.life h).lifeAt _ hlt
  refine threadYield_inv ?_ hs
  obtain ⟨X, hg, hX⟩ := h
  refine ⟨X, hg.modify_off hlt (fun _ _ => Iff.rfl) (fun _ _ => Iff.rfl) (by simp [hrun])
    (by simp [hrun]) (by simp [hrun]) (by simp [hrun]) (by simp [hrun]) id
    { hat with idle := fun _ => h0 } fun h' => ?_, fun u hu => ?_⟩
  · exact hg.life.retcode _ (h'.imp_right .inl)
  · rcases eq_or_ne u s.current with rfl | hne
    · exact ⟨h0, by simp⟩
    · rw [modify_thread_ne _ _ hne]
      exact hX u hu

end

/-- The structure of a new thread. -/
theorem lifeAt_create {dead : ℕ → Prop} (ht : t ≠ idleThread) (priority : Fin 32) :
    LifeAt dead t (Thread.create priority) := by
  refine ⟨?_, fun h => absurd h ht, ?_, ?_, ?_, ?_⟩ <;> simp [Thread.create]

/-- A new thread is suspended and on no queue. -/
theorem threadCreate_inv (h : Inv s) (priority : Fin 32) : Inv (threadCreate s priority) := by
  obtain ⟨X, hg, hX⟩ := h
  have hblank := hg.life.blank s.threads le_rfl
  have hpos := hg.life.pos
  have hnil := hg.life.retcode s.threads (.inr (.inr le_rfl))
  have hwait : update s.waitQueue (.retcode s.threads) ⟨[], 0⟩ = s.waitQueue := by
    have hcount := hg.queues.count_eq (.retcode s.threads)
    rw [update_eq_self_iff]
    rw [hnil] at hcount
    cases hq : s.waitQueue (.retcode s.threads)
    simp_all
  have hsusp : (s.thread s.threads).state = .suspended := by
    simp [hblank, Thread.blank, Thread.create]
  have hq : Queues X (s.modify s.threads fun _ => Thread.create priority) :=
    hg.queues.modify_off (fun _ _ => Iff.rfl) (by simp [hsusp]) (by simp [Thread.create])
      (by simp [hsusp]) (by simp [Thread.create])
  have hother : ∀ u, u ≠ s.threads → (threadCreate s priority).thread u = s.thread u := fun u hu => by
    simp [threadCreate, hu]
  have hself : (threadCreate s priority).thread s.threads = Thread.create priority := by
    simp [threadCreate]
  have hdead : Dead (threadCreate s priority) = Dead s := by
    funext u
    rcases eq_or_ne u s.threads with rfl | hu
    · simp [Dead, hself, hsusp, Thread.create]
    · simp [Dead, hother u hu]
  have hw : (threadCreate s priority).waitQueue = s.waitQueue := hwait
  refine ⟨X, ⟨⟨hq.run_mem, hq.run_nodup, hq.bitmap, ?_, ?_, ?_, hq.blocked⟩,
    ⟨Nat.succ_pos _, fun u hu => ?_, fun u hu => ?_, fun u hu => ?_⟩, fun u => ?_⟩, fun u hu => ?_⟩
  · rw [hw]
    exact hq.wait_mem
  · rw [hw]
    exact hq.wait_nodup
  · rw [hw]
    exact hq.count_eq
  · rw [hdead]
    rcases eq_or_ne u s.threads with rfl | hne
    · rw [hself]
      exact lifeAt_create (by simp [idleThread]; omega) priority
    · rw [hother u hne]
      exact hg.life.lifeAt u (by simp [threadCreate] at hu; omega)
  · rw [hother u (by simp [threadCreate] at hu; omega)]
    exact hg.life.blank u (by simp [threadCreate] at hu; omega)
  · rw [hw]
    rcases eq_or_ne u s.threads with rfl | hne
    · exact hnil
    · rw [hdead, hother u hne] at hu
      exact hg.life.retcode u (hu.imp_right (·.imp_right (by simp [threadCreate]; omega)))
  · rcases eq_or_ne u s.threads with rfl | hne
    · have hrun := hg.running s.threads
      rw [hsusp] at hrun
      rw [hself]
      exact hrun
    · rw [hother u hne]
      exact hg.running u
  · have hu0 := hX u hu
    rw [hother u (by rw [hu0.1, idleThread]; omega)]
    exact hu0

/-- **`wait_queue_block`.**  The queue is that of an object, or of a thread that may
still be waited for. -/
theorem waitQueueBlock_inv (h : Inv s) (hne : s.current ≠ idleThread)
    {timeout : ℕ} {r : Resume} (hr : ∀ u, r = .join u → q = .retcode u) (hq : ∀ t, q = .retcode t →
      ¬ Dead s t ∧ (s.thread t).detached = false ∧ t < s.threads)
    (hs : s.waitQueueBlock q timeout r = some s') : Inv s' := by
  have hrun := h.current_running
  have hlt := h.current_lt
  have hat := (Stable.life h).lifeAt _ hlt
  unfold Sched.waitQueueBlock at hs
  by_cases ht : timeout = 0
  · rw [if_pos ht] at hs
    exact Option.some.inj hs ▸ h
  · rw [if_neg ht] at hs
    obtain ⟨X, hg, hX⟩ := h
    refine threadResched_ready ⟨X, ⟨hg.queues.block hrun rfl rfl, ?_, fun u => ?_⟩, fun u hu => ?_⟩
      (by simp) hs
    · have hlife : Life { s with
          waitQueue := update s.waitQueue q
            ⟨(s.waitQueue q).list ++ [s.current], (s.waitQueue q).count + 1⟩ } := by
        refine hg.life.of_thread_eq rfl rfl rfl fun u hu => ?_
        have hnil := hg.life.retcode u hu
        have hne : WaitQueueId.retcode u ≠ q := fun he => by
          obtain ⟨h1, h2, h3⟩ := hq u he.symm
          rcases hu with hu | hu | hu
          · exact h1 hu.1
          · simp [h2] at hu
          · omega
        simpa [hne] using hnil
      refine hlife.modify hlt (by simp [Dead, hrun]) ?_ fun hd => ?_
      · exact { hat with
          zero := fun h0 => absurd h0 hne
          timer := fun h' => by dsimp only at h'; split at h' <;> simp at h'
          blocked := fun _ u hu => by rw [hr u hu]
          woken := by simp
          magic := fun hm => by simp [hat.magic hm] at hrun }
      · exact hlife.retcode _ (.inr (.inl (by simpa using hd)))
    · rcases eq_or_ne u s.current with rfl | hu
      · simp
      · have := hg.running u
        simpa [modify_thread_ne _ _ hu, Ne.symm hu] using this
    · have hu0 := hX u hu
      rw [modify_thread_ne _ _ fun he : u = s.current => hne (he ▸ hu0.1)]
      exact hu0

variable {err : Status}

/-- A waiter is taken off its queue. -/
theorem Good.unblock (h : Good X c s)
    (ht : t ∈ (s.waitQueue q).list) (hs' : s'.thread = s.thread) (hn : s'.threads = s.threads)
    (hc : s'.current = s.current)
    (hrun : s'.runQueue = s.runQueue) (hbits : s'.runQueueBitmap = s.runQueueBitmap)
    (hq : s'.waitQueue = update s.waitQueue q
      ⟨(s.waitQueue q).list.erase t, (s.waitQueue q).count - 1⟩)
    (herr : ∀ u, q = .retcode u → err = .noError → Dead s u) :
    Good (insert t X) c (s'.modify t (Thread.wake err)) := by
  obtain ⟨hb, hbq⟩ := (h.queues.wait_mem q t).1 ht
  have hlt := h.life.lt_of_state (t := t) (by simp [hb])
  have hat := h.life.lifeAt t hlt
  have hlife : Life s' := h.life.of_thread_eq hs' hn hc fun u hu => by
    have hnil := h.life.retcode u hu
    rw [hq]
    rcases eq_or_ne (WaitQueueId.retcode u) q with rfl | hne
    · simp [hnil]
    · simpa [hne] using hnil
  refine ⟨h.queues.unblock err ht hs' hrun hbits hq, hlife.modify (hn ▸ hlt) ?_ ?_ ?_, fun u => ?_⟩
  · simp [Dead, hs', hb]
  · rw [hs']
    exact { hat with
      zero := fun _ => .inr rfl
      timer := fun h' => by simp [hat.timer h'] at hb
      blocked := by simp [Thread.wake]
      woken := fun _ u hu hr => by
        have hret := hat.blocked hb u hu
        rw [hbq] at hret
        have hd := herr u (Option.some.inj hret) hr
        simpa [Dead, hs'] using hd
      magic := fun hm => by simp [hat.magic hm] at hb }
  · intro hd
    refine hlife.retcode t (.inr (.inl ?_))
    simpa [Thread.wake] using hd
  · have hr := h.running u
    rcases eq_or_ne u t with rfl | hne
    · simpa [Thread.wake, hb] using hr
    · simpa [modify_thread_ne _ _ hne, hs'] using hr

theorem Good.takeWaiter (h : Good X c s) (hl : (s.waitQueue q).list = t :: l)
    (herr : ∀ u, q = .retcode u → err = .noError → Dead s u) :
    Good (insert t X) c (takeWaiter s q err t l) :=
  h.unblock (by simp [hl]) rfl rfl rfl rfl rfl (by simp [hl]) herr

/-- The waiter `t` of a good state is not the running thread, nor already on its way. -/
theorem Good.waiter_ne (h : Good X c s) (ht : t ∈ (s.waitQueue q).list) :
    c ≠ some t := fun hc => by
  have hb := ((h.queues.wait_mem q t).1 ht).1
  rw [(h.running t).2 hc] at hb
  cases hb

/-- **A waiter is woken**: taken off its queue and put on its run queue. -/
theorem Stable.wake (h : Stable c s) (hl : (s.waitQueue q).list = t :: l)
    (herr : ∀ u, q = .retcode u → err = .noError → Dead s u) :
    Stable c (insertInRunQueueHead (takeWaiter s q err t l) t) := by
  obtain ⟨X, hg, hX⟩ := h
  refine ⟨_, (hg.takeWaiter hl herr).insertHead (by simp [takeWaiter, Thread.wake])
    (Set.mem_insert _ _), fun u hu => ?_⟩
  have hne : u ≠ t := fun he => hu.2 he
  have hu0 := hX u ((Set.mem_insert_iff.1 hu.1).resolve_left hne)
  simpa [insertInRunQueueHead, takeWaiter, modify_thread_ne _ _ hne] using hu0

theorem wakeLoop_frame (q : WaitQueueId) (err : Status) : ∀ (l : List ℕ) (s : Sched),
    (wakeLoop q err l s).current = s.current ∧ (wakeLoop q err l s).threads = s.threads ∧
    (∀ u, u ∉ l → (wakeLoop q err l s).thread u = s.thread u) ∧
    ((s.waitQueue q).list = l → ((wakeLoop q err l s).waitQueue q).list = [])
  | [], s => ⟨rfl, rfl, fun _ _ => rfl, id⟩
  | t :: l, s => by
      obtain ⟨h1, h2, h3, h4⟩ :=
        wakeLoop_frame q err l (insertInRunQueueHead (takeWaiter s q err t l) t)
      refine ⟨h1, h2, fun u hu => ?_, fun _ => h4 ?_⟩
      · rw [List.mem_cons, not_or] at hu
        rw [wakeLoop, h3 u hu.2]
        simp [insertInRunQueueHead, takeWaiter, modify_thread_ne _ _ hu.1]
      · simp [insertInRunQueueHead, takeWaiter]

/-- **The loop of `wait_queue_wake_all`** wakes every waiter. -/
theorem wakeLoop_stable (q : WaitQueueId) (err : Status) : ∀ (l : List ℕ) (s : Sched),
    Stable c s → (s.waitQueue q).list = l → (∀ u, q = .retcode u → err = .noError → Dead s u) →
      Stable c (wakeLoop q err l s)
  | [], _, h, _, _ => h
  | t :: l, s, h, hl, herr => by
      refine wakeLoop_stable q err l _ (h.wake hl herr) (by simp [insertInRunQueueHead, takeWaiter])
        fun u hu he => ?_
      have hd := herr u hu he
      have hb := ((h.choose_spec.1.queues.wait_mem q t).1 (by simp [hl])).1
      have hne : u ≠ t := fun he' => by
        rw [Dead, he', hb] at hd
        cases hd
      simpa [Dead, insertInRunQueueHead, takeWaiter, modify_thread_ne _ _ hne] using hd

theorem readyCurrent_stable (h : Inv s) : Stable none (readyCurrent s) :=
  (h.enqueue rfl rfl rfl rfl rfl rfl rfl).1

/-- `wait_queue_wake_one`, on the queue of an object. -/
theorem waitQueueWakeOne_inv (h : Inv s) {n : ℕ} {reschedule : Bool}
    (hs : s.waitQueueWakeOne (.object n) reschedule err = some s') : Inv s' := by
  have herr : ∀ u, WaitQueueId.object n = .retcode u → err = .noError → Dead s u :=
    fun u hu => by cases hu
  unfold Sched.waitQueueWakeOne at hs
  rcases hl : (s.waitQueue (.object n)).list with _ | ⟨t, l⟩
  · rw [hl] at hs
    exact Option.some.inj hs ▸ h
  · rw [hl] at hs
    dsimp only at hs
    cases reschedule with
    | false =>
      cases hs
      exact Stable.wake h hl herr
    | true =>
      rw [if_pos rfl] at hs
      obtain ⟨X, hg, hX⟩ := h
      have hmem : t ∈ (s.waitQueue (.object n)).list := by simp [hl]
      have hne : t ≠ s.current := fun he => hg.waiter_ne hmem (congrArg some he.symm)
      have hready : ((takeWaiter s (.object n) err t l).thread t).state = .ready := by
        simp [takeWaiter, Thread.wake]
      have hc : ((readyCurrent (takeWaiter s (.object n) err t l)).thread t).state = .ready := by
        simpa [readyCurrent, insertInRunQueueHead, takeWaiter, modify_thread_ne _ _ hne] using hready
      -- the woken thread is on its way while the current one is queued
      have hg₁ : Good (insert s.current (insert t X) \ {s.current}) none
          (readyCurrent (takeWaiter s (.object n) err t l)) :=
        ((hg.takeWaiter hl herr).enqueue_running rfl rfl rfl rfl rfl rfl rfl).1
      have hg₂ := hg₁.insertHead hc ⟨by simp, by simpa using hne⟩
      refine threadResched_ready ⟨_, hg₂, fun u hu => ?_⟩ ?_ hs
      · have hut : u ≠ t := fun he => hu.2 he
        have huc : u ≠ s.current := fun he => hu.1.2 he
        have hu0 := hX u (by simpa [hut, huc] using hu.1.1)
        simpa [readyCurrent, insertInRunQueueHead, takeWaiter, modify_thread_ne _ _ hut,
          modify_thread_ne _ _ huc] using hu0
      · simp [readyCurrent, insertInRunQueueHead, takeWaiter]

/-- `wait_queue_wake_all`, with or without rescheduling. -/
theorem waitQueueWakeAll_inv (h : Inv s) {reschedule : Bool}
    (herr : ∀ u, q = .retcode u → err = .noError → Dead s u)
    (hs : waitQueueWakeAll s q reschedule err = some s') : Inv s' := by
  unfold waitQueueWakeAll at hs
  dsimp only at hs
  have hcount := h.choose_spec.1.queues.count_eq q
  rcases hl : (s.waitQueue q).list with _ | ⟨t, l⟩
  · simp only [hcount, hl, wakeLoop] at hs
    obtain rfl : s = s' := by simpa using hs
    exact h
  · have hpos : (0 : ℤ) < (s.waitQueue q).count := by simp [hcount, hl]
    cases reschedule with
    | false =>
      simp only [Bool.false_and, Bool.false_eq_true, if_false, Option.some.injEq] at hs
      rw [← hs, Inv, (wakeLoop_frame _ _ _ _).1]
      exact wakeLoop_stable q err _ _ h rfl herr
    | true =>
      simp only [hpos, hl, List.length_cons, Nat.zero_lt_succ, decide_true, Bool.and_self,
        if_true] at hs
      have hd : ∀ u, Dead s u → Dead (readyCurrent s) u := fun u hu => by
        have hne : u ≠ s.current := fun he => by
          rw [Dead, he, h.current_running] at hu
          cases hu
        simpa [Dead, readyCurrent, insertInRunQueueHead, modify_thread_ne _ _ hne] using hu
      refine threadResched_ready (wakeLoop_stable q err _ _ (readyCurrent_stable h)
        (by simpa [readyCurrent, insertInRunQueueHead] using hl)
        fun u hu he => hd u (herr u hu he)) ?_ hs
      obtain ⟨hcur, -, hthr, -⟩ := wakeLoop_frame q err (t :: l) (readyCurrent s)
      have hne : s.current ∉ t :: l := fun hm =>
        h.choose_spec.1.waiter_ne (hl ▸ hm) rfl
      rw [hcur, hthr _ (by simpa [readyCurrent, insertInRunQueueHead] using hne)]
      simp [readyCurrent, insertInRunQueueHead]

/-- `list_delete` on the node of a blocked thread takes it off its wait queue. -/
theorem listDelete_blocked (h : Queues X s) (hb : (s.thread t).state = .blocked)
    (hq : (s.thread t).blockingWaitQueue = some q) :
    (decrementCount (listDelete s t) q).runQueue = s.runQueue ∧
    (decrementCount (listDelete s t) q).waitQueue = update s.waitQueue q
      ⟨(s.waitQueue q).list.erase t, (s.waitQueue q).count - 1⟩ := by
  constructor
  · funext p
    refine List.erase_of_not_mem fun hm => ?_
    have hr := ((h.run_mem p t).1 hm).1
    rw [hb] at hr
    cases hr
  · funext q'
    rcases eq_or_ne q' q with rfl | hne
    · simp [decrementCount, listDelete]
    · have hnot : t ∉ (s.waitQueue q').list := fun hm => by
        have := ((h.wait_mem q' t).1 hm).2
        rw [hq] at this
        exact hne (Option.some.inj this).symm
      simp [decrementCount, listDelete, hne, List.erase_of_not_mem hnot]

/-- **A timeout** wakes the thread if it is still blocked. -/
theorem waitQueueTimeoutHandler_inv (h : Inv s)
    (ht : (s.thread t).timer = some .waitQueueTimeoutHandler)
    (hs : s.waitQueueTimeoutHandler t = some s') : Inv s' := by
  have hlt : t < s.threads := by
    by_contra hlt
    simp [(Stable.life h).blank t (Nat.not_lt.1 hlt), Thread.blank, Thread.create] at ht
  have hat := (Stable.life h).lifeAt _ hlt
  have h₁ : Inv (s.modify t fun th => { th with timer := none }) :=
    Stable.modify_frame h hlt rfl rfl rfl rfl { hat with timer := by simp }
      fun hd => (Stable.life h).retcode _ (hd.imp_right .inl)
  unfold Sched.waitQueueTimeoutHandler Sched.threadUnblockFromWaitQueue at hs
  generalize s.modify t (fun th => { th with timer := none }) = s₁ at h₁ hs
  split_ifs at hs with hb
  · exact Option.some.inj hs ▸ h₁
  · have hb : (s₁.thread t).state = .blocked := not_not.1 hb
    obtain ⟨X, hg, hX⟩ := h₁
    rcases hq : (s₁.thread t).blockingWaitQueue with _ | q
    · simp [hq] at hs
    · rw [hq] at hs
      cases hs
      have hmem := (hg.queues.wait_mem q t).2 ⟨hb, hq⟩
      obtain ⟨hrun, hwait⟩ := listDelete_blocked hg.queues hb hq
      have hg' : Good (insert t X) (some s₁.current)
          ((decrementCount (listDelete s₁ t) q).modify t (Thread.wake .timedOut)) :=
        hg.unblock hmem rfl rfl rfl hrun rfl hwait (by simp)
      refine ⟨_, hg'.insertHead (by simp [Thread.wake]) (Set.mem_insert _ _), fun u hu => ?_⟩
      have hne : u ≠ t := fun he => hu.2 he
      have hu0 := hX u ((Set.mem_insert_iff.1 hu.1).resolve_left hne)
      simpa [insertInRunQueueHead, modify_thread_ne _ _ hne, decrementCount, listDelete] using hu0

theorem threadJoin_inv (h : Inv s) (hne : s.current ≠ idleThread)
    (hm : (s.thread t).magic = true) {timeout : ℕ} (hs : threadJoin s t timeout = some s') :
    Inv s' := by
  have hlt := (Stable.life h).lt_of_magic hm
  unfold threadJoin at hs
  split_ifs at hs with hd hdead
  · exact Option.some.inj hs ▸ h
  · refine waitQueueBlock_inv h hne (fun u hu => by cases hu; rfl) (fun u hu => ?_) hs
    obtain rfl : t = u := WaitQueueId.retcode.inj hu
    exact ⟨hdead, by simpa using hd, hlt⟩
  · rw [Inv, threadTeardown_current hs]
    exact threadTeardown_stable h (not_not.1 hdead) hs

theorem threadDetach_inv (h : Inv s) (hm : (s.thread t).magic = true)
    (hs : threadDetach s t = some s') : Inv s' := by
  have hlt := (Stable.life h).lt_of_magic hm
  unfold threadDetach at hs
  obtain ⟨s₁, hs₁, rfl⟩ := Option.map_eq_some_iff.1 hs
  have h₁ := waitQueueWakeAll_inv h (by simp) hs₁
  simp only [waitQueueWakeAll, Bool.false_and, Bool.false_eq_true, if_false,
    Option.some.injEq] at hs₁
  obtain ⟨-, hn, -, hnil⟩ := wakeLoop_frame (.retcode t) .threadDetached
    (s.waitQueue (.retcode t)).list s
  rw [hs₁] at hn hnil
  have hlt₁ : t < s₁.threads := hn ▸ hlt
  have hat := (Stable.life h₁).lifeAt _ hlt₁
  exact Stable.modify_frame h₁ hlt₁ rfl rfl rfl rfl { hat with } fun _ => hnil rfl

/-- A thread that exits is dead and on no queue, and who waits for it is woken. -/
theorem threadExit_inv (h : Inv s) (hne : s.current ≠ idleThread) {retcode : ℤ}
    (hs : threadExit s retcode = some s') : Inv s' := by
  have hrun := h.current_running
  have hat := (Stable.life h).lifeAt _ h.current_lt
  have h₁ : Stable none (s.modify s.current fun th =>
      { th with state := .death, retcode := retcode }) := by
    refine h.leave (by simp) (by simp) (by simp) hne ?_ rfl
    exact { hat with
      zero := fun h0 => absurd h0 hne
      timer := fun h' => by simp [hat.timer h'] at hrun
      blocked := by simp
      woken := fun _ => hat.woken (by simp [hrun])
      magic := fun _ => rfl }
  have hdead : Dead (s.modify s.current fun th =>
      { th with state := .death, retcode := retcode }) s.current := by simp [Dead]
  unfold threadExit at hs
  dsimp only at hs
  split_ifs at hs with hd
  · obtain ⟨s₂, h₂, hs₂⟩ := Option.bind_eq_some_iff.1 hs
    refine threadResched_inv (threadTeardown_stable h₁ hdead h₂) (fun _ => ?_) hs₂
    have hnil := (Stable.life h).retcode s.current (.inr (.inl hd))
    unfold threadTeardown at h₂
    split_ifs at h₂
    exact Option.some.inj h₂ ▸ hnil
  · obtain ⟨s₂, h₂, hs₂⟩ := Option.bind_eq_some_iff.1 hs
    simp only [waitQueueWakeAll, Bool.false_and, Bool.false_eq_true, if_false,
      Option.some.injEq] at h₂
    subst h₂
    obtain ⟨hcur, -, -, hnil⟩ := wakeLoop_frame (.retcode s.current) .noError
      (s.waitQueue (.retcode s.current)).list
      (s.modify s.current fun th => { th with state := .death, retcode := retcode })
    refine threadResched_inv (wakeLoop_stable _ _ _ _ h₁ rfl fun u hu _ => ?_) (fun _ => ?_) hs₂
    · obtain rfl : s.current = u := WaitQueueId.retcode.inj hu
      exact hdead
    · rw [modify_waitQueue, hcur]
      exact hnil rfl

/-- **Every step keeps the invariant.** -/
theorem step_inv (a : Op) (h : Inv s) (hs : step s a = some s') : Inv s' := by
  cases a with
  | create priority => exact Option.some.inj hs ▸ threadCreate_inv h priority
  | resume t =>
    simp only [step] at hs
    split_ifs at hs with hm
    exact Option.some.inj hs ▸ threadResume_inv h hm
  | yield => exact threadYield_inv h hs
  | preempt => exact threadPreempt_inv h hs
  | timerTick => exact Option.some.inj hs ▸ threadTimerTick_inv h
  | setRealTime t =>
    simp only [step] at hs
    split_ifs at hs with hm
    exact Option.some.inj hs ▸ threadSetRealTime_inv h hm
  | sleep =>
    simp only [step] at hs
    split_ifs at hs with hne
    exact threadSleep_inv h hne hs
  | sleepTimer t =>
    simp only [step] at hs
    split_ifs at hs with ht
    exact Option.some.inj hs ▸ threadSleepHandler_inv h ht
  | setPriority priority => exact threadSetPriority_inv h hs
  | becomeIdle =>
    simp only [step] at hs
    split_ifs at hs with h0
    exact threadBecomeIdle_inv h h0 hs
  | block n timeout =>
    simp only [step] at hs
    split_ifs at hs with hne
    exact waitQueueBlock_inv h hne (by simp) (by simp) hs
  | wakeOne n reschedule err => exact waitQueueWakeOne_inv h hs
  | wakeAll n reschedule err => exact waitQueueWakeAll_inv h (by simp) hs
  | destroy n reschedule => exact waitQueueWakeAll_inv h (by simp) hs
  | timeout t =>
    simp only [step] at hs
    split_ifs at hs with ht
    exact waitQueueTimeoutHandler_inv h ht hs
  | join t timeout =>
    simp only [step] at hs
    split_ifs at hs with hm
    exact threadJoin_inv h hm.2 hm.1 hs
  | detach t =>
    simp only [step] at hs
    split_ifs at hs with hm
    exact threadDetach_inv h hm hs
  | exit retcode =>
    simp only [step] at hs
    split_ifs at hs with hne
    exact threadExit_inv h hne hs

/-- `thread_init_early` leaves the bootstrap thread running and nothing queued. -/
theorem threadInitEarly_inv : Inv threadInitEarly := by
  have h0 : threadInitEarly.thread idleThread =
      { Thread.create 31 with state := .running, detached := true } := by simp [threadInitEarly]
  have hne : ∀ t, t ≠ idleThread → threadInitEarly.thread t = Thread.blank := fun t ht => by
    simp [threadInitEarly, ht]
  have hstate : ∀ t, (threadInitEarly.thread t).state ≠ .ready ∧
      (threadInitEarly.thread t).state ≠ .blocked := fun t => by
    rcases eq_or_ne t idleThread with rfl | ht
    · simp [h0]
    · simp [hne t ht, Thread.blank, Thread.create]
  refine ⟨∅, ⟨⟨fun p t => ?_, fun p => List.nodup_nil, fun p => ?_, fun q t => ?_,
    fun q => List.nodup_nil, fun q => rfl, fun t ht => absurd ht (hstate t).2⟩,
    ⟨Nat.one_pos, fun t ht => ?_, fun t ht => ?_, fun t _ => rfl⟩, fun t => ?_⟩, fun t ht => ht.elim⟩
  · exact iff_of_false List.not_mem_nil fun h => (hstate t).1 h.1
  · simp [threadInitEarly]
  · exact iff_of_false List.not_mem_nil fun h => (hstate t).2 h.1
  · obtain rfl : t = idleThread := by simpa [threadInitEarly, idleThread] using ht
    rw [h0]
    refine ⟨?_, fun _ => .inl rfl, ?_, ?_, ?_, ?_⟩ <;> simp [Thread.create]
  · exact hne t (by rintro rfl; simp [threadInitEarly, idleThread] at ht)
  · rcases eq_or_ne t idleThread with rfl | ht
    · simp [threadInitEarly]
    · rw [hne t ht]
      exact iff_of_false (by simp [Thread.blank, Thread.create])
        fun h => ht (Option.some.inj h).symm

/-! ## The queues in every reachable state -/

/-- Thread `t` is on no run queue and on no wait queue. -/
def OffQueues (s : Sched) (t : ℕ) : Prop :=
  (∀ p, t ∉ s.runQueue p) ∧ ∀ q, t ∉ (s.waitQueue q).list

/-- **Every thread is where its state says.** -/
structure WellQueued (s : Sched) : Prop where
  running : ∃ t, (s.thread t).state = .running ∧
    (∀ u, (s.thread u).state = .running → u = t) ∧ OffQueues s t
  ready : ∀ t, (s.thread t).state = .ready → (s.thread t).idle = false →
    (s.runQueue (s.thread t).priority).count t = 1 ∧
    (∀ p, p ≠ (s.thread t).priority → t ∉ s.runQueue p) ∧ ∀ q, t ∉ (s.waitQueue q).list
  bitmap : ∀ p : Fin 32, s.runQueueBitmap.getLsbD p = true ↔ s.runQueue p ≠ []
  blocked : ∀ t, (s.thread t).state = .blocked →
    ∃ q, (s.thread t).blockingWaitQueue = some q ∧ (s.waitQueue q).list.count t = 1 ∧
      (∀ q', q' ≠ q → t ∉ (s.waitQueue q').list) ∧ ∀ p, t ∉ s.runQueue p
  count : ∀ q, (s.waitQueue q).count = (s.waitQueue q).list.length
  off : ∀ t, (s.thread t).state = .suspended ∨ (s.thread t).state = .sleeping ∨
    (s.thread t).state = .death → OffQueues s t
  gone : ∀ t, (s.thread t).magic = false → (s.waitQueue (.retcode t)).list = []

theorem Queues.offQueues (h : Queues X s) (hr : (s.thread t).state ≠ .ready)
    (hb : (s.thread t).state ≠ .blocked) : OffQueues s t :=
  ⟨fun p hm => hr ((h.run_mem p t).1 hm).1, fun q hm => hb ((h.wait_mem q t).1 hm).1⟩

theorem Inv.wellQueued (h : Inv s) : WellQueued s := by
  have hrun := h.current_running
  obtain ⟨X, ⟨hq, hl, hr⟩, hX⟩ := h
  refine ⟨⟨s.current, hrun, fun u hu => ?_, hq.offQueues (by simp [hrun]) (by simp [hrun])⟩,
    fun t ht hi => ?_, hq.bitmap, fun t ht => ?_, hq.count_eq, fun t ht => ?_, fun t ht => ?_⟩
  · exact (Option.some.inj ((hr u).1 hu)).symm
  · have htX : t ∉ X := fun hm => by simpa [hi] using (hX t hm).2
    refine ⟨List.count_eq_one_of_mem (hq.run_nodup _) ((hq.run_mem _ t).2 ⟨ht, rfl, htX⟩),
      fun p hp hm => hp ((hq.run_mem p t).1 hm).2.1.symm, fun q hm => ?_⟩
    have hb := ((hq.wait_mem q t).1 hm).1
    rw [ht] at hb
    cases hb
  · obtain ⟨q, hbq⟩ := hq.blocked t ht
    refine ⟨q, hbq, List.count_eq_one_of_mem (hq.wait_nodup _) ((hq.wait_mem q t).2 ⟨ht, hbq⟩),
      fun q' hne hm => ?_, fun p hm => ?_⟩
    · have hb := ((hq.wait_mem q' t).1 hm).2
      rw [hbq] at hb
      exact hne (Option.some.inj hb).symm
    · have hb := ((hq.run_mem p t).1 hm).1
      rw [ht] at hb
      cases hb
  · refine hq.offQueues (fun h' => ?_) fun h' => ?_ <;> simp [h'] at ht
  · rcases Nat.lt_or_ge t s.threads with hlt | hge
    · have hd := (hl.lifeAt t hlt).magic ht
      refine hl.retcode t (.inl ⟨hd, fun he => ?_⟩)
      rw [he, hrun] at hd
      cases hd
    · exact hl.retcode t (.inr (.inr hge))

/-- **The scheduler's queues.**  After any sequence of steps from `thread_init_early`
on, one thread runs and is on no queue, every ready thread but the idle one is on the
run queue of its priority and every blocked thread on its wait queue, once and nowhere
else, the others are on no queue, and the bitmap and the counts are exact. -/
theorem scheduler_queues {as : List Op} (h : run step threadInitEarly as = some s) :
    WellQueued s :=
  (run_inv (fun _ a _ hs h => step_inv a hs h) as threadInitEarly s threadInitEarly_inv h).wellQueued

/-- Two threads of one priority are started, the idle thread gives way, the first blocks
with a timeout, the second wakes it and exits. -/
theorem scheduler_queues_two_threads :
    ∃ s, run step threadInitEarly
      [.create 16, .create 16, .resume 1, .resume 2, .becomeIdle, .block 0 10,
        .wakeOne 0 true .noError, .exit 0] = some s ∧ WellQueued s := by
  obtain ⟨s, h⟩ : ∃ s, run step threadInitEarly
      [.create 16, .create 16, .resume 1, .resume 2, .becomeIdle, .block 0 10,
        .wakeOne 0 true .noError, .exit 0] = some s := Option.isSome_iff_exists.1 (by decide +kernel)
  exact ⟨s, h, scheduler_queues h⟩

end Kernel
end LittleKernel
