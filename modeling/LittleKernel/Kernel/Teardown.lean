/-
# Tearing a thread down

`thread_exit`, `thread_join` and `thread_detach` of `kernel/thread.c`, of one thread and
its `thread_t`.  Each of the three can tear the thread down: take it off the thread
list, clear its magic number and free its stack and its structure.

A step is what a caller does under the thread lock; `thread_join` goes on after the lock
is released, with `free`, which is a step of its own (`joinFree`, `detachFree`).  A
joiner that `wait_queue_wake_all` has taken off the queue runs later (`joinResume`), and
`thread_detach` of a dead thread releases the lock before it calls `thread_join`
(`detachJoin`).  `exit` is one step: the lock is held until the next thread runs, and
the delayed frees are counted at once.

A joiner that is woken by the exit finds a structure that is gone if the thread has been
detached in between.  `torn_down_once` says that this, and calls on a thread that is
torn down or is being torn down, are all that can go wrong.
-/

import LittleKernel.Lib.Machine
import LittleKernel.Kernel.WaitQueue

namespace LittleKernel
namespace Kernel
variable {s : State}

namespace Teardown

open Machine

/-- Where a caller of `thread_join` is: in `wait_queue_block`, with a timer or not, taken
off the wait queue with a return value, or past the lock and about to free. -/
inductive JoinPhase
  | idle
  | blocked (timed : Bool)
  | woken (ret : Status)
  | freeing (retcode : ℤ)
  deriving DecidableEq

/-- Where the caller of `thread_detach` is: about to call `thread_join`, or in it past the
lock and about to free. -/
inductive DetachPhase
  | notCalled
  | joining
  | freeing
  | returned (ret : Status)
  deriving DecidableEq

/-- The thread, its callers and what has happened to it.  `freeStack` and `freeStruct` are
the flags of the same names, the first with a stack there is; `stale` records a reading of
the structure after it was freed. -/
structure State where
  dead : Bool
  retcode : ℤ
  detached : Bool
  magic : Bool
  freeStack : Bool
  freeStruct : Bool
  join : ℕ → JoinPhase
  detach : DetachPhase
  listDeletes : ℕ
  stackFrees : ℕ
  frees : ℕ
  stale : Bool
  exitCode : Option ℤ
  joins : List (Status × Option ℤ)

/-- A thread that runs, before any call. -/
def created (freeStack freeStruct : Bool) : State where
  dead := false
  retcode := 0
  detached := false
  magic := true
  freeStack := freeStack
  freeStruct := freeStruct
  join _ := .idle
  detach := .notCalled
  listDeletes := 0
  stackFrees := 0
  frees := 0
  stale := false
  exitCode := none
  joins := []

/-- The structure is read. -/
def State.read (s : State) : State := { s with stale := s.stale || decide (0 < s.frees) }

/-- `list_delete` and the clearing of `magic`. -/
def State.remove (s : State) : State :=
  { s with listDeletes := s.listDeletes + 1, magic := false }

/-- The frees of the stack and of the structure. -/
def State.release (s : State) : State :=
  { s with
    stackFrees := s.stackFrees + if s.freeStack then 1 else 0
    frees := s.frees + if s.freeStruct then 1 else 0 }

/-- `wait_queue_wake_all` of `retcode_wait_queue`. -/
def wakeAll (join : ℕ → JoinPhase) (err : Status) : ℕ → JoinPhase := fun j =>
  match join j with
  | .blocked _ => .woken err
  | p => p

/-- `thread_exit`. -/
def threadExit (s : State) (retcode : ℤ) : State :=
  let s := { s with dead := true, retcode := retcode, exitCode := some retcode }
  if s.detached then s.remove.release else { s with join := wakeAll s.join .noError }

/-- A call of `thread_join` returns. -/
def State.returnJoin (s : State) (j : ℕ) (ret : Status) (retcode : Option ℤ) : State :=
  { s with join := Function.update s.join j .idle, joins := s.joins ++ [(ret, retcode)] }

/-- `thread_join` up to the end of its locked part, when the thread is dead. -/
def joinDead (s : State) (j : ℕ) : State :=
  let s := s.read
  { s.remove with join := Function.update s.join j (.freeing s.retcode) }

/-- `thread_join` up to where it first releases the lock. -/
def joinCall (s : State) (j timeout : ℕ) : State :=
  let s := s.read
  if s.detached then s.returnJoin j .threadDetached none
  else if s.dead then joinDead s j
  else if timeout = 0 then s.returnJoin j .timedOut none
  else { s with join := Function.update s.join j (.blocked (timeout ≠ infiniteTime)) }

/-- `thread_detach` up to where it first releases the lock. -/
def detachCall (s : State) : State :=
  let s := s.read
  let s := { s with join := wakeAll s.join .threadDetached }
  if s.dead then { s with detached := false, detach := .joining }
  else { s with detached := true, detach := .returned .noError }

/-- The call `thread_join(t, NULL, 0)` at the end of `thread_detach`. -/
def detachJoin (s : State) : State :=
  let s := s.read
  if s.detached then { s with detach := .returned .threadDetached }
  else if s.dead then { s.remove with detach := .freeing }
  else { s with detach := .returned .timedOut }

/-- The steps of the thread and of its callers. -/
inductive Step
  | exit (retcode : ℤ)
  | joinCall (j timeout : ℕ)
  | joinTimeout (j : ℕ)
  | joinResume (j : ℕ)
  | joinFree (j : ℕ)
  | detachCall
  | detachJoin
  | detachFree
  deriving DecidableEq

/-- One step, `none` where its caller is not there. -/
def step (s : State) : Step → Option State
  | .exit retcode => if s.dead then none else some (threadExit s retcode)
  | .joinCall j timeout => if s.join j = .idle then some (joinCall s j timeout) else none
  | .joinTimeout j =>
    if s.join j = .blocked true
    then some { s with join := Function.update s.join j (.woken .timedOut) } else none
  | .joinResume j =>
    match s.join j with
    | .woken .noError => some (joinDead s j)
    | .woken err => some (s.returnJoin j err none)
    | _ => none
  | .joinFree j =>
    match s.join j with
    | .freeing retcode => some (s.read.release.returnJoin j .noError (some retcode))
    | _ => none
  | .detachCall => if s.detach = .notCalled then some (detachCall s) else none
  | .detachJoin => if s.detach = .joining then some (detachJoin s) else none
  | .detachFree =>
    if s.detach = .freeing
    then some { s.read.release with detach := .returned .noError } else none

/-- Every caller of `thread_join` and `thread_detach` has returned. -/
def State.Quiet (s : State) : Prop :=
  (∀ j, s.join j = .idle) ∧ s.detach ≠ .joining ∧ s.detach ≠ .freeing

/-- **Torn down once.**  The thread is removed and freed at most once, and exactly once
when it has exited, it was joined or detached and the calls have returned; the structure
is not read after it was freed; and a join that returns `NO_ERROR` delivers the code of
the exit. -/
structure TornDownOnce (s : State) : Prop where
  removed : s.listDeletes ≤ 1
  stackFreed : s.stackFrees ≤ 1
  freed : s.frees ≤ 1
  fresh : s.stale = false
  alive : s.exitCode = none → s.listDeletes = 0 ∧ s.stackFrees = 0 ∧ s.frees = 0
  delivered : ∀ r ∈ s.joins, r.1 = .noError → r.2 = s.exitCode ∧ s.exitCode ≠ none
  done : s.exitCode ≠ none → s.Quiet →
    ((∃ r ∈ s.joins, r.1 = .noError) ∨ s.detach ≠ .notCalled) →
    s.listDeletes = 1 ∧ s.stackFrees = (if s.freeStack then 1 else 0) ∧
      s.frees = if s.freeStruct then 1 else 0

/-- What the callers keep to: calls are made on a thread that is not torn down, one thread
joins at a time, none while a detach is about to join, and a dead thread is not detached
while a joiner that its exit has woken has not run yet. -/
def Ok (s : State) : Step → Prop
  | .joinCall _ _ => s.magic = true ∧ (∀ k, s.join k = .idle) ∧ s.detach ≠ .joining
  | .detachCall => s.magic = true ∧ (s.dead = true → ∀ j, s.join j ≠ .woken .noError)
  | _ => True

/-! ### The invariant -/

/-- Someone is between the locked part of a teardown and the frees. -/
def State.Freeing (s : State) : Prop := (∃ j r, s.join j = .freeing r) ∨ s.detach = .freeing

/-- What holds as long as the thread is not torn down. -/
structure Whole (s : State) : Prop where
  listDeletes : s.listDeletes = 0
  stackFrees : s.stackFrees = 0
  frees : s.frees = 0
  notFreeing : ¬ s.Freeing
  joining : s.detach = .joining → s.dead = true ∧ s.detached = false ∧
    ∀ j, s.join j ≠ .woken .noError
  returned : ∀ r, s.detach = .returned r → s.dead = false ∧ s.detached = true
  detached : s.detached = true → s.dead = false
  woken : ∀ j, s.join j = .woken .noError → s.dead = true
  notJoined : ∀ r ∈ s.joins, r.1 ≠ .noError

/-- What holds once the thread is torn down: no one else is about to do it, and the frees
are due or done. -/
structure Gone (s : State) : Prop where
  dead : s.dead = true
  listDeletes : s.listDeletes = 1
  notJoining : s.detach ≠ .joining
  notWoken : ∀ j, s.join j ≠ .woken .noError
  one : (∃ j r, s.join j = .freeing r) → s.detach ≠ .freeing
  due : s.Freeing → s.stackFrees = 0 ∧ s.frees = 0
  released : ¬ s.Freeing → s.stackFrees = (if s.freeStack then 1 else 0) ∧
    s.frees = if s.freeStruct then 1 else 0

/-- At most one caller is in `thread_join`. -/
def Single (join : ℕ → JoinPhase) : Prop := ∀ i j, join i ≠ .idle → join j ≠ .idle → i = j

/-- The invariant of the teardown. -/
structure Inv (s : State) : Prop where
  single : Single s.join
  exitCode : s.exitCode = if s.dead then some s.retcode else none
  fresh : s.stale = false
  blocked : ∀ j b, s.join j = .blocked b → s.dead = false ∧ s.detached = false
  freeing : ∀ j r, s.join j = .freeing r → r = s.retcode
  delivered : ∀ r ∈ s.joins, r.1 = .noError → r.2 = some s.retcode
  whole : s.magic = true → Whole s
  gone : s.magic = false → Gone s

theorem inv_created (freeStack freeStruct : Bool) : Inv (created freeStack freeStruct) := by
  constructor <;> simp [created, Single]
  constructor <;> simp [State.Freeing]

/-- The invariant is enough. -/
theorem Inv.tornDownOnce (h : Inv s) : TornDownOnce s := by
  cases hm : s.magic with
  | true =>
    have hw := h.whole hm
    refine ⟨by rw [hw.listDeletes]; omega, by rw [hw.stackFrees]; omega, by rw [hw.frees]; omega,
      h.fresh, fun _ => ⟨hw.listDeletes, hw.stackFrees, hw.frees⟩,
      fun r hr hret => absurd hret (hw.notJoined r hr), fun hexit hq hdone => ?_⟩
    exfalso
    rcases hdone with ⟨r, hr, hret⟩ | hdet
    · exact hw.notJoined r hr hret
    · -- a detach that has returned found the thread alive
      have hdead : s.dead = false := by
        cases hd : s.detach with
        | notCalled => exact absurd hd hdet
        | joining => exact absurd hd hq.2.1
        | freeing => exact absurd hd hq.2.2
        | returned r => exact (hw.returned r hd).1
      rw [h.exitCode, hdead] at hexit
      exact hexit rfl
  | false =>
    have hg := h.gone hm
    have hexit : s.exitCode = some s.retcode := by rw [h.exitCode, hg.dead]; rfl
    have hle : s.stackFrees ≤ 1 ∧ s.frees ≤ 1 := by
      by_cases hf : s.Freeing
      · have := hg.due hf
        omega
      · obtain ⟨h₁, h₂⟩ := hg.released hf
        rw [h₁, h₂]
        constructor <;> split <;> omega
    refine ⟨hg.listDeletes.le, hle.1, hle.2, h.fresh, fun hn => ?_, fun r hr hret => ?_,
      fun _ hq _ => ⟨hg.listDeletes, hg.released ?_⟩⟩
    · rw [hexit] at hn
      cases hn
    · rw [hexit]
      exact ⟨h.delivered r hr hret, by simp⟩
    · rintro (⟨j, r, hj⟩ | hd)
      · rw [hq.1 j] at hj
        cases hj
      · exact hq.2.2 hd

theorem wakeAll_cases (join : ℕ → JoinPhase) (err : Status) (j : ℕ) :
    (∃ b, join j = .blocked b) ∧ wakeAll join err j = .woken err ∨
      (∀ b, join j ≠ .blocked b) ∧ wakeAll join err j = join j := by
  cases h : join j <;> simp [wakeAll, h]

theorem wakeAll_ne_blocked (join : ℕ → JoinPhase) (err : Status) (j : ℕ) (b : Bool) :
    wakeAll join err j ≠ .blocked b := by
  rcases wakeAll_cases join err j with ⟨-, h⟩ | ⟨hb, h⟩
  · simp [h]
  · rw [h]
    exact hb b

variable {j : ℕ} {join : ℕ → JoinPhase}

theorem wakeAll_eq_freeing {err : Status} {r : ℤ} :
    wakeAll join err j = .freeing r ↔ join j = .freeing r := by
  rcases wakeAll_cases join err j with ⟨⟨b, hb⟩, h⟩ | ⟨-, h⟩
  · simp [h, hb]
  · rw [h]

theorem Single.wakeAll (h : Single join) (err : Status) :
    Single (wakeAll join err) := by
  have hidle : ∀ i, Teardown.wakeAll join err i ≠ .idle → join i ≠ .idle := fun i hi hn => by
    rcases wakeAll_cases join err i with ⟨⟨b, hb⟩, -⟩ | ⟨-, he⟩
    · simp [hn] at hb
    · exact hi (he.trans hn)
  exact fun i j hi hj => h i j (hidle i hi) (hidle j hj)

/-- A reading of a structure that is there leaves no trace. -/
theorem read_of_frees (hf : s.frees = 0) : s.read = s := by
  have hstale : (s.stale || decide (0 < s.frees)) = s.stale := by simp [hf]
  rw [State.read, hstale]

/-- The thread exits: it wakes its joiners, or goes away itself if it is detached. -/
theorem Inv.exit (h : Inv s) (hdead : s.dead = false) (retcode : ℤ) :
    Inv (threadExit s retcode) := by
  -- the thread is not torn down, since it runs
  have hm : s.magic = true := by
    by_contra hm
    have := (h.gone (by simpa using hm)).dead
    simp [hdead] at this
  have hw := h.whole hm
  have hnw : ∀ j, s.join j ≠ .woken .noError := fun j hj => by
    simpa [hdead] using hw.woken j hj
  have hnj : s.detach ≠ .joining := fun hj => by simpa [hdead] using (hw.joining hj).1
  cases hd : s.detached with
  | true =>
    simp only [threadExit, hd, if_true]
    have hnb : ∀ j b, s.join j ≠ .blocked b := fun j b hj => by
      simpa [hd] using (h.blocked j b hj).2
    refine ⟨h.single, rfl, h.fresh, fun j b hj => absurd hj (hnb j b), ?_, ?_, ?_, fun _ => ?_⟩
    · intro j r hj
      exact absurd (.inl ⟨j, r, hj⟩) hw.notFreeing
    · intro r hr hret
      exact absurd hret (hw.notJoined r hr)
    · intro hmagic
      cases hmagic
    · refine ⟨rfl, ?_, hnj, hnw, ?_, fun hf => absurd hf hw.notFreeing, fun _ => ⟨?_, ?_⟩⟩
      · simp [State.release, State.remove, hw.listDeletes]
      · rintro ⟨j, r, hj⟩
        exact absurd (.inl ⟨j, r, hj⟩) hw.notFreeing
      · simp [State.release, State.remove, hw.stackFrees]
      · simp [State.release, State.remove, hw.frees]
  | false =>
    simp only [threadExit, hd, Bool.false_eq_true, if_false]
    refine ⟨h.single.wakeAll _, rfl, h.fresh, fun j b hj => ?_, fun j r hj => ?_, ?_, fun _ => ?_, ?_⟩
    · exact absurd hj (wakeAll_ne_blocked _ _ _ _)
    · exact absurd (.inl ⟨j, r, wakeAll_eq_freeing.1 hj⟩) hw.notFreeing
    · exact fun r hr hret => absurd hret (hw.notJoined r hr)
    · refine ⟨hw.listDeletes, hw.stackFrees, hw.frees, ?_, fun hj => absurd hj hnj, fun r hr => ?_,
        fun hdet => ?_, fun _ _ => rfl, hw.notJoined⟩
      · rintro (⟨j, r, hj⟩ | hf)
        · exact hw.notFreeing (.inl ⟨j, r, wakeAll_eq_freeing.1 hj⟩)
        · exact hw.notFreeing (.inr hf)
      · simpa [hd] using (hw.returned r hr).2
      · simp at hdet
    · intro hmagic
      simp [hm] at hmagic

/-- A call of `thread_join` that leaves the thread as it is. -/
theorem Inv.update (h : Inv s) {p : JoinPhase}
    (hother : ∀ k, k ≠ j → s.join k = .idle) (hnf : ∀ r, s.join j ≠ .freeing r)
    (hp : ∀ r, p ≠ .freeing r) (hw : p ≠ .woken .noError)
    (hb : ∀ b, p = .blocked b → s.dead = false ∧ s.detached = false)
    {joins : List (Status × Option ℤ)} (hjoins : ∀ r ∈ joins, r ∈ s.joins ∨ r.1 ≠ .noError) :
    Inv { s with join := Function.update s.join j p, joins := joins } := by
  have hjoin : ∀ k, k ≠ j → Function.update s.join j p k = .idle := fun k hk => by
    rw [Function.update_of_ne hk, hother k hk]
  have hnfree : ∀ k r, Function.update s.join j p k ≠ .freeing r := fun k r => by
    rcases eq_or_ne k j with rfl | hk
    · rw [Function.update_self]
      exact hp r
    · rw [hjoin k hk]
      simp
  have hnwoken : ∀ k, Function.update s.join j p k ≠ .woken .noError := fun k => by
    rcases eq_or_ne k j with rfl | hk
    · rwa [Function.update_self]
    · rw [hjoin k hk]
      simp
  -- no one was about to free, in a join, before or after
  have hfree : ∀ k r, s.join k ≠ .freeing r := fun k r => by
    rcases eq_or_ne k j with rfl | hk
    · exact hnf r
    · rw [hother k hk]
      simp
  refine ⟨fun i k hi hk => ?_, h.exitCode, h.fresh, fun k b hk => ?_, fun k r hk => ?_,
    fun r hr hret => ?_, fun hm => ?_, fun hm => ?_⟩
  · by_contra hne
    rcases eq_or_ne i j with rfl | hij
    · exact hk (hjoin k (Ne.symm hne))
    · exact hi (hjoin i hij)
  · rcases eq_or_ne k j with rfl | hkj
    · exact hb b ((Function.update_self ..).symm.trans hk)
    · cases (hjoin k hkj).symm.trans hk
  · exact absurd hk (hnfree k r)
  · rcases hjoins r hr with hold | hne
    · exact h.delivered r hold hret
    · exact absurd hret hne
  · have hwh := h.whole hm
    refine ⟨hwh.listDeletes, hwh.stackFrees, hwh.frees, ?_, fun hj => ?_, hwh.returned, hwh.detached,
      fun k hk => absurd hk (hnwoken k), fun r hr => ?_⟩
    · rintro (⟨k, r, hk⟩ | hf)
      · exact hnfree k r hk
      · exact hwh.notFreeing (.inr hf)
    · exact ⟨(hwh.joining hj).1, (hwh.joining hj).2.1, hnwoken⟩
    · rcases hjoins r hr with hold | hne
      · exact hwh.notJoined r hold
      · exact hne
  · have hg := h.gone hm
    refine ⟨hg.dead, hg.listDeletes, hg.notJoining, hnwoken, ?_, fun hf => hg.due ?_, fun hf => ?_⟩
    · rintro ⟨k, r, hk⟩
      exact absurd hk (hnfree k r)
    · rcases hf with ⟨k, r, hk⟩ | hf
      · exact absurd hk (hnfree k r)
      · exact .inr hf
    · refine hg.released ?_
      rintro (⟨k, r, hk⟩ | hd)
      · exact hfree k r hk
      · exact hf (.inr hd)

/-- A join of a dead thread that is not torn down tears it down. -/
theorem Inv.joinDead (h : Inv s) (hm : s.magic = true) (hdead : s.dead = true)
    (hother : ∀ k, k ≠ j → s.join k = .idle) (hnj : s.detach ≠ .joining) :
    Inv (joinDead s j) := by
  have hw := h.whole hm
  have hjoin : ∀ k, k ≠ j → Function.update s.join j (.freeing s.retcode) k = .idle := fun k hk => by
    rw [Function.update_of_ne hk, hother k hk]
  have hself : Function.update s.join j (.freeing s.retcode) j = .freeing s.retcode :=
    Function.update_self ..
  have hnd : s.detach ≠ .freeing := fun hd => hw.notFreeing (.inr hd)
  simp only [Teardown.joinDead, read_of_frees hw.frees, State.remove]
  refine ⟨fun i k hi hk => ?_, h.exitCode, h.fresh, fun k b hk => ?_, fun k r hk => ?_,
    h.delivered, fun hmagic => (by cases hmagic), fun _ => ?_⟩
  · by_contra hne
    rcases eq_or_ne i j with rfl | hij
    · exact hk (hjoin k (Ne.symm hne))
    · exact hi (hjoin i hij)
  · rcases eq_or_ne k j with rfl | hkj
    · cases hself.symm.trans hk
    · cases (hjoin k hkj).symm.trans hk
  · rcases eq_or_ne k j with rfl | hkj
    · exact (JoinPhase.freeing.inj (hself.symm.trans hk)).symm
    · cases (hjoin k hkj).symm.trans hk
  · refine ⟨hdead, by rw [hw.listDeletes], hnj, fun k hk => ?_, fun _ => hnd,
      fun _ => ⟨hw.stackFrees, hw.frees⟩, fun hf => ?_⟩
    · rcases eq_or_ne k j with rfl | hkj
      · cases hself.symm.trans hk
      · cases (hjoin k hkj).symm.trans hk
    · exact absurd (.inl ⟨j, _, hself⟩) hf

theorem Single.others (h : Single join) (hj : join j ≠ .idle) :
    ∀ k, k ≠ j → join k = .idle := fun k hk => by
  by_contra hne
  exact hk (h k j hne hj)

/-- The frees at the end of a join. -/
theorem Inv.joinFree (h : Inv s) {retcode : ℤ} (hj : s.join j = .freeing retcode) :
    Inv (s.read.release.returnJoin j .noError (some retcode)) := by
  have hm : s.magic = false := by
    by_contra hm
    exact (h.whole (by simpa using hm)).notFreeing (.inl ⟨j, retcode, hj⟩)
  have hg := h.gone hm
  have hfree : s.Freeing := .inl ⟨j, retcode, hj⟩
  obtain ⟨hstack, hstruct⟩ := hg.due hfree
  have hidle : ∀ k, Function.update s.join j .idle k = .idle := fun k => by
    rcases eq_or_ne k j with rfl | hk
    · exact Function.update_self ..
    · rw [Function.update_of_ne hk, h.single.others (by simp [hj]) k hk]
  rw [read_of_frees hstruct]
  simp only [State.returnJoin, State.release]
  refine ⟨fun i k hi => absurd (hidle i) hi, h.exitCode, h.fresh, fun k b hk => ?_, fun k r hk => ?_,
    fun r hr hret => ?_, fun hmagic => ?_, fun _ => ?_⟩
  · cases (hidle k).symm.trans hk
  · cases (hidle k).symm.trans hk
  · rcases List.mem_append.1 hr with hr | hr
    · exact h.delivered r hr hret
    · rw [List.mem_singleton.1 hr, h.freeing j retcode hj]
  · simp [hm] at hmagic
  · refine ⟨hg.dead, hg.listDeletes, hg.notJoining, fun k hk => ?_, ?_, ?_, fun _ => ⟨?_, ?_⟩⟩
    · cases (hidle k).symm.trans hk
    · exact fun _ => hg.one ⟨j, retcode, hj⟩
    · rintro (⟨k, r, hk⟩ | hd)
      · cases (hidle k).symm.trans hk
      · exact absurd hd (hg.one ⟨j, retcode, hj⟩)
    · rw [hstack, Nat.zero_add]
    · rw [hstruct, Nat.zero_add]

/-- The first part of `thread_detach`. -/
theorem Inv.detachCall (h : Inv s) (hm : s.magic = true)
    (hjoiner : s.dead = true → ∀ j, s.join j ≠ .woken .noError) : Inv (detachCall s) := by
  have hw := h.whole hm
  have hwoken : ∀ j, wakeAll s.join .threadDetached j = .woken .noError →
      s.join j = .woken .noError := fun j hj => by
    rcases wakeAll_cases s.join .threadDetached j with ⟨-, he⟩ | ⟨-, he⟩
    · simp [he] at hj
    · rwa [he] at hj
  have hnf : ∀ j r, wakeAll s.join .threadDetached j ≠ .freeing r := fun j r hj =>
    hw.notFreeing (.inl ⟨j, r, wakeAll_eq_freeing.1 hj⟩)
  simp only [Teardown.detachCall, read_of_frees hw.frees]
  split
  · rename_i hdead
    refine ⟨h.single.wakeAll _, h.exitCode, h.fresh, fun j b hj => ?_, fun j r hj => ?_,
      h.delivered, fun _ => ?_, fun hmagic => ?_⟩
    · exact absurd hj (wakeAll_ne_blocked _ _ _ _)
    · exact absurd hj (hnf j r)
    · refine ⟨hw.listDeletes, hw.stackFrees, hw.frees, ?_, fun _ => ⟨hdead, rfl, fun j hj => ?_⟩,
        fun r hr => ?_, fun hdet => ?_, fun j hj => hdead, hw.notJoined⟩
      · rintro (⟨j, r, hj⟩ | hf)
        · exact hnf j r hj
        · cases hf
      · exact hjoiner hdead j (hwoken j hj)
      · cases hr
      · cases hdet
    · simp [hm] at hmagic
  · rename_i hdead
    have hdead : s.dead = false := by simpa using hdead
    refine ⟨h.single.wakeAll _, h.exitCode, h.fresh, fun j b hj => ?_, fun j r hj => ?_,
      h.delivered, fun _ => ?_, fun hmagic => ?_⟩
    · exact absurd hj (wakeAll_ne_blocked _ _ _ _)
    · exact absurd hj (hnf j r)
    · refine ⟨hw.listDeletes, hw.stackFrees, hw.frees, ?_, fun hj => ?_, fun r _ => ⟨hdead, rfl⟩,
        fun _ => hdead, fun j hj => hw.woken j (hwoken j hj), hw.notJoined⟩
      · rintro (⟨j, r, hj⟩ | hf)
        · exact hnf j r hj
        · cases hf
      · cases hj
    · simp [hm] at hmagic

/-- The call of `thread_join` in `thread_detach`. -/
theorem Inv.detachJoin (h : Inv s) (hd : s.detach = .joining) : Inv (detachJoin s) := by
  have hm : s.magic = true := by
    by_contra hm
    exact (h.gone (by simpa using hm)).notJoining hd
  have hw := h.whole hm
  obtain ⟨hdead, hdet, hnw⟩ := hw.joining hd
  have hnf : ∀ j r, s.join j ≠ .freeing r := fun j r hj => hw.notFreeing (.inl ⟨j, r, hj⟩)
  simp only [Teardown.detachJoin, read_of_frees hw.frees, hdet, hdead, Bool.false_eq_true, if_false,
    if_true, State.remove]
  refine ⟨h.single, by rw [h.exitCode, hdead], h.fresh, fun j b hj => ?_, h.freeing, h.delivered,
    fun hmagic => (by cases hmagic), fun _ => ⟨rfl, by rw [hw.listDeletes], by simp, hnw, ?_,
      fun _ => ⟨hw.stackFrees, hw.frees⟩, fun hf => absurd (.inr rfl) hf⟩⟩
  · have := (h.blocked j b hj).1
    simp [hdead] at this
  · rintro ⟨j, r, hj⟩
    exact absurd hj (hnf j r)

/-- The frees at the end of `thread_detach`. -/
theorem Inv.detachFree (h : Inv s) (hd : s.detach = .freeing) :
    Inv { s.read.release with detach := .returned .noError } := by
  have hm : s.magic = false := by
    by_contra hm
    exact (h.whole (by simpa using hm)).notFreeing (.inr hd)
  have hg := h.gone hm
  obtain ⟨hstack, hstruct⟩ := hg.due (.inr hd)
  have hnf : ∀ j r, s.join j ≠ .freeing r := fun j r hj => hg.one ⟨j, r, hj⟩ hd
  rw [read_of_frees hstruct]
  simp only [State.release]
  refine ⟨h.single, h.exitCode, h.fresh, h.blocked, h.freeing, h.delivered, fun hmagic => ?_,
    fun _ => ⟨hg.dead, hg.listDeletes, by simp, hg.notWoken, by simp, ?_, fun _ => ⟨?_, ?_⟩⟩⟩
  · simp [hm] at hmagic
  · rintro (⟨j, r, hj⟩ | hf)
    · exact absurd hj (hnf j r)
    · cases hf
  · rw [hstack, Nat.zero_add]
  · rw [hstruct, Nat.zero_add]

/-- **Every step keeps the invariant** when the callers keep to the rules. -/
theorem Inv.step {s s' : State} {a : Step} (h : Inv s) (hok : Ok s a) (hstep : step s a = some s') :
    Inv s' := by
  cases a with
  | exit retcode =>
    simp only [Teardown.step] at hstep
    split at hstep
    · cases hstep
    · rename_i hdead
      cases hstep
      exact h.exit (by simpa using hdead) retcode
  | joinCall j timeout =>
    obtain ⟨hm, hidle, hnj⟩ := hok
    have hw := h.whole hm
    simp only [Teardown.step, if_pos (hidle j), Option.some.injEq] at hstep
    subst hstep
    simp only [Teardown.joinCall, read_of_frees hw.frees]
    have hother : ∀ k, k ≠ j → s.join k = .idle := fun k _ => hidle k
    have hnf : ∀ r, s.join j ≠ .freeing r := fun r hj => by simp [hidle j] at hj
    -- a call that fails is over, and did not return the exit code
    have hfails : ∀ e : Status × Option ℤ, e.1 ≠ .noError →
        ∀ r ∈ s.joins ++ [e], r ∈ s.joins ∨ r.1 ≠ .noError := fun e he r hr => by
      rcases List.mem_append.1 hr with hr | hr
      · exact .inl hr
      · exact .inr (List.mem_singleton.1 hr ▸ he)
    split
    · exact h.update hother hnf (by simp) (by simp) (by simp) (hfails _ (by simp))
    · rename_i hdet
      split
      · rename_i hdead
        exact h.joinDead hm hdead hother hnj
      · rename_i hdead
        split
        · exact h.update hother hnf (by simp) (by simp) (by simp) (hfails _ (by simp))
        · exact h.update hother hnf (by simp) (by simp)
            (fun _ _ => ⟨by simpa using hdead, by simpa using hdet⟩) fun r hr => .inl hr
  | joinTimeout j =>
    simp only [Teardown.step] at hstep
    split at hstep
    · rename_i hj
      cases hstep
      exact h.update (h.single.others (by simp [hj])) (by simp [hj]) (by simp) (by simp)
        (by simp) fun r hr => .inl hr
    · cases hstep
  | joinResume j =>
    simp only [Teardown.step] at hstep
    split at hstep
    · rename_i hj
      cases hstep
      -- the exit has woken this joiner, and no one has torn the thread down since
      have hm : s.magic = true := by
        by_contra hm
        exact (h.gone (by simpa using hm)).notWoken j hj
      have hw := h.whole hm
      exact h.joinDead hm (hw.woken j hj) (h.single.others (by simp [hj]))
        fun hd => (hw.joining hd).2.2 j hj
    · rename_i err hne hj
      cases hstep
      refine h.update (h.single.others (by simp [hj])) (by simp [hj]) (by simp) (by simp)
        (by simp) fun r hr => ?_
      rcases List.mem_append.1 hr with hr | hr
      · exact .inl hr
      · refine .inr fun hret => hne ?_
        rwa [List.mem_singleton.1 hr] at hret
    · cases hstep
  | joinFree j =>
    simp only [Teardown.step] at hstep
    split at hstep
    · rename_i retcode hj
      cases hstep
      exact h.joinFree hj
    · cases hstep
  | detachCall =>
    simp only [Teardown.step] at hstep
    split at hstep
    · cases hstep
      exact h.detachCall hok.1 hok.2
    · cases hstep
  | detachJoin =>
    simp only [Teardown.step] at hstep
    split at hstep
    · rename_i hd
      cases hstep
      exact h.detachJoin hd
    · cases hstep
  | detachFree =>
    simp only [Teardown.step] at hstep
    split at hstep
    · rename_i hd
      cases hstep
      exact h.detachFree hd
    · cases hstep

/-- **A thread is torn down once.**  In every run of a thread and of its callers that keep
to the rules, the teardown happens at most once, no one reads the structure after it was
freed, and every join that succeeds delivers the code of the exit. -/
theorem torn_down_once (freeStack freeStruct : Bool) (as : List Step)
    (hok : Along step Ok (created freeStack freeStruct) as) :
    Throughout step TornDownOnce (created freeStack freeStruct) as :=
  (hok.throughout (fun _ _ _ hs hok h => hs.step hok h) (inv_created freeStack freeStruct)).imp
    fun _ h => h.tornDownOnce

/-- A joiner waits, the thread exits, and the joiner runs and tears it down. -/
theorem torn_down_once_joined :
    Throughout step TornDownOnce (created true true)
      [.joinCall 0 infiniteTime, .exit 7, .joinResume 0, .joinFree 0] := by
  refine torn_down_once true true _ ⟨⟨rfl, fun _ => rfl, by simp [created]⟩, fun _ _ =>
    ⟨trivial, fun _ _ => ⟨trivial, fun _ _ => ⟨trivial, fun _ _ => trivial⟩⟩⟩⟩

/-- A joiner waits, the thread exits and is detached before the joiner has run: the
thread is removed and freed twice, and the joiner reads the structure that is gone. -/
theorem detach_before_joiner_runs :
    (run step (created true true) [.joinCall 0 infiniteTime, .exit 7, .detachCall, .detachJoin,
      .detachFree, .joinResume 0, .joinFree 0]).map
        (fun s => (s.listDeletes, s.stackFrees, s.frees, s.stale)) = some (2, 2, 2, true) := by
  decide +kernel

end Teardown
end Kernel
end LittleKernel
