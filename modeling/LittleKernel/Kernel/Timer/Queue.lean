/-
# The timer queue on one processor

`Schedule` says what timers are for: a timer that is set has a deadline, in
milliseconds that do not wrap, until it is called or cancelled; a tick calls the
timers whose deadline has come, the earliest first, until none is left; a
periodic timer gets its next deadline when its callback returns, unless the
callback has cancelled it or set it again.

`timer_queue_law`: on one processor, `timer.c` runs as the schedule allows,
whatever the callbacks set and cancel and however often the clock wraps, as long
as delays and periods are below `2 ^ 30` and no timer gets overdue by as much.
The queue holds exactly the timers with a deadline, each once, in the order of
wrap-aware time.  What makes the comparisons right is that all deadlines lie
within `2 ^ 30` of the clock (`Core.window`).
-/

import LittleKernel.Kernel.Timer.Basic

namespace LittleKernel
namespace Timer

open Word Machine

variable {ι κ : Type} [DecidableEq ι]

/-! ### The schedule -/

/-- What a timer is set to: its deadline, its period (`0` for a one-shot) and the call. -/
structure Arming (κ : Type) where
  deadline : ℕ
  period : ℕ
  callback : κ
  arg : ℕ
  deriving DecidableEq

/-- What each timer is set to, the timer whose callback runs with what it was set to
and whether it was cancelled since, and the time of the last tick. -/
structure Schedule (ι κ : Type) where
  now : ℕ
  tickTime : ℕ
  arm : ι → Option (Arming κ)
  flight : Option (ι × Arming κ × Bool)

namespace Schedule

def init (now : ℕ) : Schedule ι κ := ⟨now, now, fun _ => none, none⟩

/-- A timer is set. -/
def set (G : Schedule ι κ) (t : ι) (delay period : ℕ) (callback : κ) (arg : ℕ) : Schedule ι κ :=
  { G with arm := Function.update G.arm t (some ⟨G.now + delay, period, callback, arg⟩) }

/-- A timer is cancelled, perhaps by its own callback. -/
def cancel (G : Schedule ι κ) (t : ι) : Schedule ι κ :=
  { G with
    arm := Function.update G.arm t none
    flight := G.flight.map fun f => if f.1 = t then (f.1, f.2.1, true) else f }

/-- The callback that runs returns: a periodic timer that it neither cancelled nor set
again gets its next deadline. -/
def requeue (G : Schedule ι κ) : Schedule ι κ :=
  match G.flight with
  | some (t, a, false) =>
    if 0 < a.period ∧ G.arm t = none then
      { G with
        arm := Function.update G.arm t (some { a with deadline := G.tickTime + a.period }) }
    else G
  | _ => G

/-- The tick goes on to the timer `t`, or ends. -/
def goOn (G : Schedule ι κ) : TickOut ι κ → Schedule ι κ
  | .due t =>
    { G with
      arm := Function.update G.arm t none
      flight := (G.arm t).map fun a => (t, a, false) }
  | _ => { G with flight := none }

/-- What a tick may go on to: an earliest timer that is due, or the end when none is. -/
def MayGoOn (G : Schedule ι κ) : TickOut ι κ → Prop
  | .due t => ∃ a, G.arm t = some a ∧ a.deadline ≤ G.tickTime ∧
      ∀ u b, G.arm u = some b → a.deadline ≤ b.deadline
  | .ends => ∀ t a, G.arm t = some a → G.tickTime < a.deadline
  | _ => False

/-- The law: which steps the schedule allows, with what they do. -/
def Law (G : Schedule ι κ) : TimerAct ι κ → TickOut ι κ → Schedule ι κ → Prop
  | .advance ms, o, G' => o = .none ∧ G' = { G with now := G.now + ms }
  | .setOneshot _ t delay cb arg, o, G' =>
    o = .none ∧ G' = G.set t (if delay = 0 then 1 else delay) 0 cb arg
  | .setPeriodic _ t period cb arg, o, G' => o = .none ∧
      G' = G.set t (if period = 0 then 1 else period) (if period = 0 then 1 else period) cb arg
  | .cancel _ t, o, G' => o = .none ∧ G' = G.cancel t
  | .enter _, o, G' =>
    { G with tickTime := G.now }.MayGoOn o ∧ G' = { G with tickTime := G.now }.goOn o
  | .call _, o, G' => ∃ t a, G.flight = some (t, a, false) ∧ o = .called t a.callback a.arg ∧
      G' = G
  | .finish _, o, G' => G.requeue.MayGoOn o ∧ G' = G.requeue.goOn o

/-- The schedule after a step. -/
def next (G : Schedule ι κ) : TimerAct ι κ → TickOut ι κ → Schedule ι κ
  | .advance ms, _ => { G with now := G.now + ms }
  | .setOneshot _ t delay cb arg, _ => G.set t (if delay = 0 then 1 else delay) 0 cb arg
  | .setPeriodic _ t period cb arg, _ =>
    G.set t (if period = 0 then 1 else period) (if period = 0 then 1 else period) cb arg
  | .cancel _ t, _ => G.cancel t
  | .enter _, o => { G with tickTime := G.now }.goOn o
  | .call _, _ => G
  | .finish _, o => G.requeue.goOn o

/-- The deadline of a timer that is set. -/
def deadline (G : Schedule ι κ) (t : ι) : ℕ := (G.arm t).elim 0 Arming.deadline

end Schedule

/-- The timers and their schedule, side by side. -/
def scheduledStep (p : Timers ι κ × Schedule ι κ) (a : TimerAct ι κ) :
    Option ((Timers ι κ × Schedule ι κ) × TickOut ι κ) :=
  (timerStep p.1 a).map fun q => ((q.1, p.2.next a q.2), q.2)

/-- A step on processor 0 that it can take: delays and periods are below `2 ^ 30`, a
timer that is set is not in the queue, and time passes so that no timer is overdue by
`2 ^ 30` and no tick takes that long. -/
def Timely (p : Timers ι κ × Schedule ι κ) : TimerAct ι κ → Prop
  | .advance ms => (∀ t ∈ p.1.queue 0, p.2.now + ms < p.2.deadline t + 2 ^ 30) ∧
      (p.1.tick 0 ≠ .idle → p.2.now + ms < p.2.tickTime + 2 ^ 30)
  | .setOneshot cpu t delay _ _ => cpu = 0 ∧ p.1.Free 0 ∧ (p.1.timer t).node = none ∧
      delay < 2 ^ 30
  | .setPeriodic cpu t period _ _ => cpu = 0 ∧ p.1.Free 0 ∧ (p.1.timer t).node = none ∧
      period < 2 ^ 30
  | .cancel cpu _ => cpu = 0 ∧ p.1.Free 0
  | .enter cpu => cpu = 0 ∧ p.1.tick 0 = .idle
  | .call cpu => cpu = 0 ∧ ¬ p.1.Free 0
  | .finish cpu => cpu = 0 ∧ p.1.tick 0 ≠ .idle ∧ p.1.Free 0

instance [DecidableEq κ] (p : Timers ι κ × Schedule ι κ) :
    ∀ a : TimerAct ι κ, Decidable (Timely p a)
  | .advance _ => inferInstanceAs (Decidable (_ ∧ _))
  | .setOneshot .. => inferInstanceAs (Decidable (_ ∧ _))
  | .setPeriodic .. => inferInstanceAs (Decidable (_ ∧ _))
  | .cancel .. => inferInstanceAs (Decidable (_ ∧ _))
  | .enter _ => inferInstanceAs (Decidable (_ ∧ _))
  | .call _ => inferInstanceAs (Decidable (_ ∧ _))
  | .finish _ => inferInstanceAs (Decidable (_ ∧ _))

/-! ### The invariant -/

/-- What `timer_set` leaves in a timer. -/
def Arming.timerT (a : Arming κ) (node : Option ℕ) : TimerT κ :=
  ⟨node, u32 a.deadline, a.period, some a.callback, a.arg⟩

/-- The queue holds the timers that are set, in the order of their deadlines, which lie
within `2 ^ 30` of the clock. -/
structure Core (s : Timers ι κ) (G : Schedule ι κ) : Prop where
  time : s.time = G.now
  tick_le : G.tickTime ≤ G.now
  off : ∀ t, G.arm t = none → (s.timer t).node = none
  on : ∀ t a, G.arm t = some a → s.timer t = a.timerT (some 0)
  mem : ∀ t, t ∈ s.queue 0 ↔ (G.arm t).isSome
  nodup : (s.queue 0).Nodup
  sorted : (s.queue 0).Pairwise fun a b => G.deadline a ≤ G.deadline b
  window : ∀ t a, G.arm t = some a →
    a.deadline < G.now + 2 ^ 30 ∧ G.now < a.deadline + 2 ^ 30 ∧ a.period < 2 ^ 30

/-- The tick and the timer in flight. -/
def InTick (s : Timers ι κ) (G : Schedule ι κ) : Prop :=
  match s.tick 0 with
  | .idle => True
  | .dequeued now t => now = u32 G.tickTime ∧ G.now < G.tickTime + 2 ^ 30 ∧ ∃ a,
      a.period < 2 ^ 30 ∧ G.flight = some (t, a, false) ∧ G.arm t = none ∧
      s.timer t = a.timerT none
  | .calling now t periodic _ _ => now = u32 G.tickTime ∧ G.now < G.tickTime + 2 ^ 30 ∧
      ∃ a c, a.period < 2 ^ 30 ∧ G.flight = some (t, a, c) ∧ periodic = decide (0 < a.period) ∧
      (G.arm t = none → if c then (s.timer t).periodicTime = 0 else s.timer t = a.timerT none)

section Core

variable {s : Timers ι κ} {G : Schedule ι κ} {t : ι}

omit [DecidableEq ι] in
theorem Core.flight (hc : Core s G) (tk : ℕ → TickPc ι κ) (f : Option (ι × Arming κ × Bool)) :
    Core { s with tick := tk } { G with flight := f } :=
  ⟨hc.time, hc.tick_le, hc.off, hc.on, hc.mem, hc.nodup, hc.sorted, hc.window⟩

omit [DecidableEq ι] in
/-- A timer that is in no list is not set. -/
theorem Core.arm_none (hc : Core s G) (ht : (s.timer t).node = none) : G.arm t = none := by
  cases ha : G.arm t with
  | none => rfl
  | some a =>
    rw [hc.on t a ha] at ht
    cases ht

/-- A store to a timer that is not set. -/
theorem Core.setTimer (hc : Core s G) (ht : G.arm t = none) {v : TimerT κ} (hv : v.node = none) :
    Core (s.setTimer t v) G := by
  refine ⟨hc.time, hc.tick_le, fun u hu => ?_, fun u a hu => ?_, hc.mem, hc.nodup, hc.sorted,
    hc.window⟩
  · rcases eq_or_ne u t with rfl | hne
    · simpa [Timers.setTimer] using hv
    · simpa [Timers.setTimer, hne] using hc.off u hu
  · have hne : u ≠ t := by
      rintro rfl
      rw [ht] at hu
      cases hu
    simpa [Timers.setTimer, hne] using hc.on u a hu

variable {a : Arming κ}

omit [DecidableEq ι] in
/-- On times in the window the comparison is that of the deadlines. -/
theorem Core.timeGT (hc : Core s G) {u : ι} {d : ℕ} (hu : G.arm u = some a)
    (hd : d < G.now + 2 ^ 30) (hd' : G.now < d + 2 ^ 30) :
    TimeGT (s.timer u).scheduledTime (u32 d) ↔ d < a.deadline := by
  obtain ⟨he, he', -⟩ := hc.window u a hu
  rw [hc.on u a hu]
  exact timeGT_iff (by omega) (by omega)

/-- `insert_timer_in_queue` with a deadline in the window. -/
theorem Core.insert (hc : Core s G) (ht : G.arm t = none)
    (hs : s.timer t = a.timerT none) (hd : a.deadline < G.now + 2 ^ 30)
    (hd' : G.now < a.deadline + 2 ^ 30) (hp : a.period < 2 ^ 30) :
    Core (insertTimerInQueue s 0 t) { G with arm := Function.update G.arm t (some a) } := by
  have htq : t ∉ s.queue 0 := by
    rw [hc.mem, ht]
    simp
  have hdl : ∀ u ∈ s.queue 0,
      ({ G with arm := Function.update G.arm t (some a) } : Schedule ι κ).deadline u =
        G.deadline u := by
    intro u hu
    have hne : u ≠ t := fun h => htq (h ▸ hu)
    simp [Schedule.deadline, hne]
  have hdt : ({ G with arm := Function.update G.arm t (some a) } : Schedule ι κ).deadline t =
      a.deadline := by
    simp [Schedule.deadline]
  refine ⟨hc.time, hc.tick_le, fun u hu => ?_, fun u b hu => ?_, fun u => ?_, ?_, ?_,
    fun u b hu => ?_⟩
  · have hne : u ≠ t := by
      rintro rfl
      simp at hu
    simp only [Function.update_of_ne hne] at hu
    simpa [insertTimerInQueue, Timers.setTimer, hne] using hc.off u hu
  · rcases eq_or_ne u t with rfl | hne
    · simp only [Function.update_self, Option.some.injEq] at hu
      simp [insertTimerInQueue, Timers.setTimer, hs, ← hu, Arming.timerT]
    · simp only [Function.update_of_ne hne] at hu
      simpa [insertTimerInQueue, Timers.setTimer, hne] using hc.on u b hu
  · simp only [insertTimerInQueue, Function.update_self, mem_insertSorted]
    rcases eq_or_ne u t with rfl | hne
    · simp
    · simpa [hne] using hc.mem u
  · simp only [insertTimerInQueue, Function.update_self]
    exact nodup_insertSorted hc.nodup htq
  · simp only [insertTimerInQueue, Function.update_self]
    refine sorted_insertSorted (hc.sorted.imp_of_mem fun ha hb hab => ?_) fun u hu => ?_
    · rw [hdl _ ha, hdl _ hb]
      exact hab
    · obtain ⟨b, hb⟩ := Option.isSome_iff_exists.1 ((hc.mem u).1 hu)
      rw [hdl u hu, hdt, hs, Schedule.deadline, hb]
      exact hc.timeGT hb hd hd'
  · rcases eq_or_ne u t with rfl | hne
    · simp only [Function.update_self, Option.some.injEq] at hu
      exact hu ▸ ⟨hd, hd', hp⟩
    · simp only [Function.update_of_ne hne] at hu
      exact hc.window u b hu

/-- `list_delete` of a timer, if it is in the list. -/
theorem Core.delete (hc : Core s G) (t : ι) :
    Core (listDelete s t) { G with arm := Function.update G.arm t none } := by
  cases hat : G.arm t with
  | none =>
    have hG : ({ G with arm := Function.update G.arm t none } : Schedule ι κ) = G := by
      rw [← hat, Function.update_eq_self]
    rw [hG, listDelete, hc.off t hat]
    exact hc
  | some a =>
    have hdel : listDelete s t = { s.setTimer t { s.timer t with node := none } with
        queue := Function.update s.queue 0 ((s.queue 0).erase t) } := by
      rw [listDelete, hc.on t a hat]
      rfl
    have hdl : ∀ u ∈ (s.queue 0).erase t,
        ({ G with arm := Function.update G.arm t none } : Schedule ι κ).deadline u =
          G.deadline u := by
      intro u hu
      have hne : u ≠ t := fun h => hc.nodup.not_mem_erase (h ▸ hu)
      simp [Schedule.deadline, hne]
    rw [hdel]
    refine ⟨hc.time, hc.tick_le, fun u hu => ?_, fun u b hu => ?_, fun u => ?_, ?_, ?_,
      fun u b hu => ?_⟩
    · rcases eq_or_ne u t with rfl | hne
      · simp [Timers.setTimer]
      · simp only [Function.update_of_ne hne] at hu
        simpa [Timers.setTimer, hne] using hc.off u hu
    · have hne : u ≠ t := by
        rintro rfl
        simp at hu
      simp only [Function.update_of_ne hne] at hu
      simpa [Timers.setTimer, hne] using hc.on u b hu
    · simp only [Function.update_self, hc.nodup.mem_erase_iff]
      rcases eq_or_ne u t with rfl | hne
      · simp
      · simpa [hne] using hc.mem u
    · simp only [Function.update_self]
      exact hc.nodup.erase t
    · simp only [Function.update_self]
      refine (hc.sorted.sublist List.erase_sublist).imp_of_mem fun ha hb hab => ?_
      rw [hdl _ ha, hdl _ hb]
      exact hab
    · have hne : u ≠ t := by
        rintro rfl
        simp at hu
      simp only [Function.update_of_ne hne] at hu
      exact hc.window u b hu

/-! ### Setting and cancelling -/

theorem Core.set (hc : Core s G) (ht : (s.timer t).node = none) {delay period : ℕ} (cb : κ)
    (arg : ℕ) (hd : delay < 2 ^ 30) (hp : period < 2 ^ 30) :
    ∃ s', timerSet s 0 t delay period cb arg = some s' ∧ Core s' (G.set t delay period cb arg) ∧
      s'.tick = s.tick ∧ ∀ u, u ≠ t → s'.timer u = s.timer u := by
  have hs : (s.setTimer t ⟨none, u32 (s.currentTime + delay), period, some cb, arg⟩).timer t =
      (⟨G.now + delay, period, cb, arg⟩ : Arming κ).timerT none := by
    simp [Timers.setTimer, Arming.timerT, Timers.currentTime, hc.time, u32]
  have hat := hc.arm_none ht
  refine ⟨insertTimerInQueue (s.setTimer t
      ⟨none, u32 (s.currentTime + delay), period, some cb, arg⟩) 0 t,
    by rw [timerSet, if_neg (by simp [ht])], ?_, rfl, fun u hu => ?_⟩
  · exact (hc.setTimer hat rfl).insert hat hs (by simp only; omega) (by simp only; omega) hp
  · simp [insertTimerInQueue, Timers.setTimer, hu]

/-- A timer that a callback sets is not the one in flight, as far as its requeueing goes. -/
theorem InTick.set (hi : InTick s G) (hfree : s.Free 0) {s' : Timers ι κ}
    (htick : s'.tick = s.tick) (hframe : ∀ u, u ≠ t → s'.timer u = s.timer u)
    (delay period : ℕ) (cb : κ) (arg : ℕ) : InTick s' (G.set t delay period cb arg) := by
  unfold InTick at hi ⊢
  rw [htick]
  cases hpc : s.tick 0 with
  | idle => trivial
  | dequeued now u => exact absurd hpc (hfree now u)
  | calling now u periodic cb' arg' =>
    rw [hpc] at hi
    obtain ⟨hnow, hb, a, c, ha, hf, hper, harm⟩ := hi
    refine ⟨hnow, hb, a, c, ha, hf, hper, fun hu => ?_⟩
    have hne : u ≠ t := by
      rintro rfl
      simp [Schedule.set] at hu
    simp only [Schedule.set, Function.update_of_ne hne] at hu
    rw [hframe u hne]
    exact harm hu

theorem Core.cancel (hc : Core s G) (t : ι) : Core (timerCancel s t) (G.cancel t) := by
  have hd := hc.delete t
  have ht : (Function.update G.arm t none) t = none := Function.update_self ..
  exact (hd.setTimer ht (v := { (listDelete s t).timer t with
    periodicTime := 0, callback := none, arg := 0 }) (hd.off t ht)).flight _ _

theorem InTick.cancel (hi : InTick s G) (hfree : s.Free 0) (t : ι) :
    InTick (timerCancel s t) (G.cancel t) := by
  have htick : (timerCancel s t).tick = s.tick := listDelete_tick s t
  unfold InTick at hi ⊢
  rw [htick]
  cases hpc : s.tick 0 with
  | idle => trivial
  | dequeued now u => exact absurd hpc (hfree now u)
  | calling now u periodic cb' arg' =>
    rw [hpc] at hi
    obtain ⟨hnow, hb, a, c, ha, hf, hper, harm⟩ := hi
    rcases eq_or_ne u t with rfl | hne
    · refine ⟨hnow, hb, a, true, ha, by simp [Schedule.cancel, hf], hper, fun _ => ?_⟩
      simp [timerCancel, Timers.setTimer]
    · refine ⟨hnow, hb, a, c, ha, by simp [Schedule.cancel, hf, hne], hper, fun hu => ?_⟩
      simp only [Schedule.cancel, Function.update_of_ne hne] at hu
      have hframe : (timerCancel s t).timer u = s.timer u := by
        simp [timerCancel, Timers.setTimer, hne, listDelete_timer]
      rw [hframe]
      exact harm hu

/-! ### The tick -/

/-- One turn of the loop takes the earliest timer if it is due. -/
theorem tickLoop_spec (hc : Core s G) (hb : G.now < G.tickTime + 2 ^ 30) :
    G.MayGoOn (tickLoop s 0 (u32 G.tickTime)).2 ∧
      Core (tickLoop s 0 (u32 G.tickTime)).1 (G.goOn (tickLoop s 0 (u32 G.tickTime)).2) ∧
      InTick (tickLoop s 0 (u32 G.tickTime)).1 (G.goOn (tickLoop s 0 (u32 G.tickTime)).2) := by
  have hle := hc.tick_le
  cases hq : s.queue 0 with
  | nil =>
    have hloop : tickLoop s 0 (u32 G.tickTime) =
        ({ s with tick := Function.update s.tick 0 .idle }, .ends) := by
      rw [tickLoop, hq]
    rw [hloop]
    refine ⟨fun t a ha => ?_, hc.flight _ none, by simp [InTick]⟩
    have hm := (hc.mem t).2 (by simp [ha])
    simp [hq] at hm
  | cons t l =>
    obtain ⟨a, ha⟩ := Option.isSome_iff_exists.1 ((hc.mem t).1 (by simp [hq]))
    have hfirst : ∀ u b, G.arm u = some b → a.deadline ≤ b.deadline := by
      intro u b hu
      have hm : u ∈ t :: l := hq ▸ (hc.mem u).2 (by simp [hu])
      have hsort := hq ▸ hc.sorted
      rcases List.mem_cons.1 hm with rfl | hm
      · rw [ha] at hu
        cases hu
        exact le_rfl
      · have := (List.pairwise_cons.1 hsort).1 u hm
        simpa [Schedule.deadline, ha, hu] using this
    obtain ⟨hw, hw', hp⟩ := hc.window t a ha
    have hcmp : TimeLT (u32 G.tickTime) (s.timer t).scheduledTime ↔
        G.tickTime < a.deadline := by
      rw [hc.on t a ha]
      exact timeLT_iff (by omega) (by omega)
    by_cases hlt : G.tickTime < a.deadline
    · have hloop : tickLoop s 0 (u32 G.tickTime) =
          ({ s with tick := Function.update s.tick 0 .idle }, .ends) := by
        rw [tickLoop, hq]
        exact if_pos (hcmp.2 hlt)
      rw [hloop]
      exact ⟨fun u b hu => hlt.trans_le (hfirst u b hu), hc.flight _ none, by simp [InTick]⟩
    · have hloop : tickLoop s 0 (u32 G.tickTime) =
          ({ listDelete s t with
              tick := Function.update (listDelete s t).tick 0 (.dequeued (u32 G.tickTime) t) },
            .due t) := by
        rw [tickLoop, hq]
        exact if_neg fun h => hlt (hcmp.1 h)
      have htimer : (listDelete s t).timer t = a.timerT none := by
        simp [listDelete, hc.on t a ha, Arming.timerT, Timers.setTimer]
      rw [hloop]
      refine ⟨⟨a, ha, by omega, hfirst⟩, (hc.delete t).flight _ _, ?_⟩
      simp only [InTick, Function.update_self, Schedule.goOn]
      exact ⟨trivial, hb, a, hp, by simp [ha], trivial, htimer⟩

/-- The callback returns and the tick goes on. -/
theorem tickFinish_spec (hc : Core s G) {now : ℕ} {periodic : Bool} {c : Bool}
    (hnow : now = u32 G.tickTime) (hb : G.now < G.tickTime + 2 ^ 30) (hap : a.period < 2 ^ 30)
    (hf : G.flight = some (t, a, c)) (hper : periodic = decide (0 < a.period))
    (harm : G.arm t = none →
      if c then (s.timer t).periodicTime = 0 else s.timer t = a.timerT none) :
    ∃ o s', tickFinish s 0 now t periodic = (s', o) ∧ G.requeue.MayGoOn o ∧
      Core s' (G.requeue.goOn o) ∧ InTick s' (G.requeue.goOn o) := by
  subst hnow
  have hle := hc.tick_le
  by_cases hre : c = false ∧ 0 < a.period ∧ G.arm t = none
  · obtain ⟨rfl, hpos, hat⟩ := hre
    have hst : s.timer t = a.timerT none := by simpa using harm hat
    have hG : G.requeue = { G with
        arm := Function.update G.arm t (some { a with deadline := G.tickTime + a.period }) } := by
      simp [Schedule.requeue, hf, hpos, hat]
    have hs : (s.setTimer t { s.timer t with
          scheduledTime := u32 (u32 G.tickTime + (s.timer t).periodicTime) }).timer t =
        ({ a with deadline := G.tickTime + a.period } : Arming κ).timerT none := by
      simp [Timers.setTimer, hst, Arming.timerT, u32]
    have hc' := (hc.setTimer hat (v := { s.timer t with
      scheduledTime := u32 (u32 G.tickTime + (s.timer t).periodicTime) }) (hc.off t hat)).insert hat hs
      (by simp only; omega) (by simp only; omega) hap
    rw [← hG] at hc'
    have hfin : tickFinish s 0 (u32 G.tickTime) t periodic = tickLoop (insertTimerInQueue (s.setTimer t
        { s.timer t with scheduledTime := u32 (u32 G.tickTime + (s.timer t).periodicTime) }) 0 t) 0
        (u32 G.tickTime) :=
      if_pos ⟨by simp [hper, hpos], hc.off t hat, by simp [hst, Arming.timerT, hpos]⟩
    rw [hfin]
    have htt : G.requeue.tickTime = G.tickTime := by rw [hG]
    have hspec := tickLoop_spec hc' (by rw [hG]; exact hb)
    rw [htt] at hspec
    exact ⟨_, _, rfl, hspec⟩
  · have hG : G.requeue = G := by
      simp only [Schedule.requeue, hf]
      split
      · rename_i h
        cases h
        exact if_neg fun hp => hre ⟨rfl, hp⟩
      · rfl
    have hfin : tickFinish s 0 (u32 G.tickTime) t periodic = tickLoop s 0 (u32 G.tickTime) := by
      refine if_neg fun h => ?_
      obtain ⟨hp, hnode, hpt⟩ := h
      have hat := hc.arm_none hnode
      have hpos : 0 < a.period := by simpa [hper] using hp
      cases c with
      | false => exact hre ⟨rfl, hpos, hat⟩
      | true =>
        have h0 : (s.timer t).periodicTime = 0 := by simpa using harm hat
        omega
    rw [hfin, hG]
    exact ⟨_, _, rfl, tickLoop_spec hc hb⟩

end Core

/-! ### Runs -/

section Run

/-- Both parts. -/
def Inv (p : Timers ι κ × Schedule ι κ) : Prop := Core p.1 p.2 ∧ InTick p.1 p.2

omit [DecidableEq ι] in
theorem inv_init (now : ℕ) :
    Inv ((Timers.init now, Schedule.init now) : Timers ι κ × Schedule ι κ) := by
  refine ⟨⟨rfl, le_rfl, fun _ _ => rfl, fun _ _ h => ?_, fun t => ?_, ?_, ?_, fun _ _ h => ?_⟩,
    trivial⟩
  · cases h
  · simp [Timers.init, Schedule.init]
  · simp [Timers.init]
  · simp [Timers.init]
  · cases h

omit [DecidableEq ι] in
theorem Inv.advance {s : Timers ι κ} {G : Schedule ι κ} (hi : Inv (s, G)) {ms : ℕ}
    (hok : Timely (s, G) (.advance ms)) :
    Inv ({ s with time := s.time + ms }, { G with now := G.now + ms }) := by
  obtain ⟨hc, ht⟩ := hi
  obtain ⟨hdue, hlong⟩ := hok
  have hle : G.tickTime ≤ G.now := hc.tick_le
  have htime : s.time = G.now := hc.time
  refine ⟨⟨?_, ?_, hc.off, hc.on, hc.mem, hc.nodup, hc.sorted, fun t a ha => ?_⟩, ?_⟩
  · simp only [htime]
  · simp only
    omega
  · replace ha : G.arm t = some a := ha
    obtain ⟨hw, hw', hp⟩ := hc.window t a ha
    have hlate := hdue t ((hc.mem t).2 (by simp [ha]))
    simp only [Schedule.deadline, ha, Option.elim_some] at hlate
    exact ⟨by simp only at hw ⊢; omega, hlate, hp⟩
  · simp only [InTick] at ht ⊢
    cases hpc : s.tick 0 with
    | idle => trivial
    | dequeued now t =>
      rw [hpc] at ht
      exact ⟨ht.1, hlong (by simp [hpc]), ht.2.2⟩
    | calling now t periodic cb arg =>
      rw [hpc] at ht
      exact ⟨ht.1, hlong (by simp [hpc]), ht.2.2⟩

/-- The code takes every timely step, as the law allows. -/
theorem Inv.step {p : Timers ι κ × Schedule ι κ} (hi : Inv p) {a : TimerAct ι κ}
    (hok : Timely p a) :
    ∃ p' o, scheduledStep p a = some (p', o) ∧ p.2.Law a o p'.2 ∧ Inv p' := by
  obtain ⟨s, G⟩ := p
  cases a with
  | advance ms => exact ⟨_, _, rfl, ⟨rfl, rfl⟩, hi.advance hok⟩
  | setOneshot cpu t delay cb arg =>
    obtain ⟨rfl, hfree, hnode, hd⟩ := hok
    obtain ⟨s', hs', hc', htick, hframe⟩ :=
      hi.1.set hnode cb arg (show (if delay = 0 then 1 else delay) < 2 ^ 30 by split <;> omega)
        (show 0 < 2 ^ 30 by omega)
    refine ⟨(s', G.set t (if delay = 0 then 1 else delay) 0 cb arg), .none, ?_, ⟨rfl, rfl⟩, hc',
      hi.2.set hfree htick hframe _ _ _ _⟩
    simp only at hfree hs'
    simp [scheduledStep, timerStep, hfree, timerSetOneshot, hs', Schedule.next]
  | setPeriodic cpu t period cb arg =>
    obtain ⟨rfl, hfree, hnode, hd⟩ := hok
    have hd' : (if period = 0 then 1 else period) < 2 ^ 30 := by split <;> omega
    obtain ⟨s', hs', hc', htick, hframe⟩ := hi.1.set hnode cb arg hd' hd'
    refine ⟨(s', G.set t (if period = 0 then 1 else period) (if period = 0 then 1 else period)
      cb arg), .none, ?_, ⟨rfl, rfl⟩, hc', hi.2.set hfree htick hframe _ _ _ _⟩
    simp only at hfree hs'
    simp [scheduledStep, timerStep, hfree, timerSetPeriodic, hs', Schedule.next]
  | cancel cpu t =>
    obtain ⟨rfl, hfree⟩ := hok
    refine ⟨(timerCancel s t, G.cancel t), .none, ?_, ⟨rfl, rfl⟩, hi.1.cancel t,
      hi.2.cancel hfree t⟩
    simp only at hfree
    simp [scheduledStep, timerStep, hfree, Schedule.next]
  | enter cpu =>
    obtain ⟨rfl, hidle⟩ := hok
    have hc' : Core s { G with tickTime := G.now } :=
      ⟨hi.1.time, le_rfl, hi.1.off, hi.1.on, hi.1.mem, hi.1.nodup, hi.1.sorted, hi.1.window⟩
    obtain ⟨hmay, hcore, htick⟩ := tickLoop_spec hc' (by simp only; omega)
    refine ⟨((tickLoop s 0 (u32 G.now)).1,
        { G with tickTime := G.now }.goOn (tickLoop s 0 (u32 G.now)).2),
      (tickLoop s 0 (u32 G.now)).2, ?_, ⟨hmay, rfl⟩, hcore, htick⟩
    have htime : s.time = G.now := hi.1.time
    simp only at hidle
    simp [scheduledStep, timerStep, hidle, Timers.currentTime, htime, Schedule.next]
  | call cpu =>
    obtain ⟨rfl, hfree⟩ := hok
    obtain ⟨hc, ht⟩ := hi
    obtain ⟨now, t, hpc⟩ : ∃ now t, s.tick 0 = .dequeued now t := by
      simpa only [Timers.Free, not_forall, not_not] using hfree
    simp only [InTick] at ht
    rw [hpc] at ht
    obtain ⟨hnow, hb, a, hap, hf, hat, hst⟩ := ht
    let tick := Function.update s.tick 0
      (TickPc.calling now t (decide (0 < a.period)) a.callback a.arg)
    refine ⟨({ s with tick := tick }, G),
      .called t a.callback a.arg, ?_, ⟨t, a, hf, rfl, rfl⟩, hc.flight _ G.flight, ?_⟩
    · simp [scheduledStep, timerStep, hpc, tickCall, hst, Arming.timerT, Schedule.next, tick]
    · simp only [InTick, tick, Function.update_self]
      exact ⟨hnow, hb, a, false, hap, hf, rfl, fun _ => by simpa using hst⟩
  | finish cpu =>
    obtain ⟨rfl, hbusy, hfree⟩ := hok
    obtain ⟨hc, ht⟩ := hi
    obtain ⟨now, t, periodic, cb, arg, hpc⟩ :
        ∃ now t periodic cb arg, s.tick 0 = .calling now t periodic cb arg := by
      cases hpc : s.tick 0 with
      | idle => exact absurd hpc hbusy
      | dequeued now t => exact absurd hpc (hfree now t)
      | calling now t periodic cb arg => exact ⟨now, t, periodic, cb, arg, rfl⟩
    simp only [InTick] at ht
    rw [hpc] at ht
    obtain ⟨hnow, hb, a, c, hap, hf, hper, harm⟩ := ht
    obtain ⟨o, s', hfin, hmay, hcore, htick⟩ := tickFinish_spec hc hnow hb hap hf hper harm
    refine ⟨(s', G.requeue.goOn o), o, ?_, ⟨hmay, rfl⟩, hcore, htick⟩
    simp only at hfin
    simp [scheduledStep, timerStep, hpc, hfin, Schedule.next]

/-- **The timer queue law.**  Whatever timers are set and cancelled, by threads and by
callbacks, and whenever the ticks come, the steps are those of the schedule; the queue
holds exactly the timers that are set, once each, sorted by wrap-aware time. -/
theorem timer_queue_law (now : ℕ) (as : List (TimerAct ι κ))
    (hok : Along (fun p a => (scheduledStep p a).map Prod.fst) Timely
      ((Timers.init now, Schedule.init now) : Timers ι κ × Schedule ι κ) as) :
    ∃ s G os, trace scheduledStep (Timers.init now, Schedule.init now) as = some ((s, G), os) ∧
      Accepts Schedule.Law (Schedule.init now) as os G ∧
      (s.queue 0).Pairwise (fun t u =>
        ¬ TimeGT (s.timer t).scheduledTime (s.timer u).scheduledTime) ∧
      (s.queue 0).Nodup ∧ (∀ t, t ∈ s.queue 0 ↔ (G.arm t).isSome) := by
  obtain ⟨⟨s, G⟩, os, htr, hacc, hinv⟩ :=
    trace_accepted (fun _ _ hi hok => Inv.step hi hok) as _ (inv_init now) hok
  obtain ⟨hc, -⟩ : Core s G ∧ InTick s G := hinv
  refine ⟨s, G, os, htr, hacc, ?_, hc.nodup, hc.mem⟩
  refine hc.sorted.imp_of_mem fun {t u} ht hu htu hgt => ?_
  obtain ⟨a, ha⟩ := Option.isSome_iff_exists.1 ((hc.mem t).1 ht)
  obtain ⟨b, hb⟩ := Option.isSome_iff_exists.1 ((hc.mem u).1 hu)
  obtain ⟨hw, hw', -⟩ := hc.window u b hb
  rw [hc.on u b hb] at hgt
  have hlt := (hc.timeGT ha hw hw').1 hgt
  simp only [Schedule.deadline, ha, hb, Option.elim_some] at htu
  omega

/-- A run over the wrap of the clock: a periodic timer and a one-shot are set before it,
and come due after it; the callback of the one-shot sets the one-shot again, that of
the periodic timer cancels both. -/
def wrapRun : List (TimerAct ℕ ℕ) :=
  [.setPeriodic 0 1 8 10 0, .setOneshot 0 2 5 20 0, .advance 9, .enter 0, .call 0,
    .setOneshot 0 2 3 20 0, .advance 2, .finish 0, .call 0, .finish 0, .advance 9, .enter 0,
    .call 0, .finish 0, .call 0, .cancel 0 1, .cancel 0 2, .finish 0]

/-- What the run calls is what the law allows, with 32-bit times on both sides of the wrap. -/
theorem timer_queue_law_wrapRun :
    ∃ s G os, trace scheduledStep (Timers.init (2 ^ 32 - 7), Schedule.init (2 ^ 32 - 7)) wrapRun =
        some ((s, G), os) ∧
      Accepts Schedule.Law (Schedule.init (2 ^ 32 - 7)) wrapRun os G ∧
      (s.queue 0).Pairwise (fun t u =>
        ¬ TimeGT (s.timer t).scheduledTime (s.timer u).scheduledTime) ∧
      (s.queue 0).Nodup ∧ (∀ t, t ∈ s.queue 0 ↔ (G.arm t).isSome) :=
  timer_queue_law (2 ^ 32 - 7) wrapRun (by decide)

/-- What that run calls. -/
example : (trace timerStep (Timers.init (2 ^ 32 - 7)) wrapRun).map Prod.snd =
    some [.none, .none, .none, .due 2, .called 2 20 0, .none, .none, .due 1, .called 1 10 0, .ends,
      .none, .due 2, .called 2 20 0, .due 1, .called 1 10 0, .none, .none, .ends] := by
  decide

end Run

end Timer
end LittleKernel
