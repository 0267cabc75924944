/-
# Ports

`kernel/port.c`, whole: write ports, read ports, port groups and the circular
buffers that move between them.

A `port_t` is an address, `0` for `NULL`, and the objects live in one heap, so
that a handle of the wrong kind is answered as the code answers it, by the
`magic` at its start.  A freed object is not in the heap any more and touching
one is undefined (`none`).  What `calloc` and `malloc` return is an input of the
call.  The callers' out pointers are taken to be there.

The wait queue of a read port or of a group is kept under its address, beside
the threads that were taken off some queue and have not run since; a read is one
step up to its `wait_queue_block` and one from each return of it on, so that the
steps interleave at thread-lock granularity.  `threadLock` is the lock left
behind by a call that returned without releasing it.
-/

import Mathlib.Algebra.GroupWithZero.Nat
import Mathlib.Data.List.Nodup
import Mathlib.Data.Nat.Log
import Mathlib.Logic.Function.Basic
import LittleKernel.Lib.Machine

namespace LittleKernel
namespace Port

open Function

variable {α : Type}

/-! ### Circular buffers -/

/-- `modpow2` (`include/pow2.h`). -/
def modpow2 (val modp2 : ℕ) : ℕ := val &&& (2 ^ modp2 - 1)

theorem modpow2_eq (val modp2 : ℕ) : modpow2 val modp2 = val % 2 ^ modp2 :=
  Nat.and_two_pow_sub_one_eq_mod val modp2

/-- `port_buf_t`.  The unread packets run from `head` up to `tail`, around the
end, and `avail` counts the free slots. -/
structure PortBuf (α : Type) where
  log2 : ℕ
  avail : ℕ
  head : ℕ
  tail : ℕ
  packet : ℕ → α
  avail_le : avail ≤ 2 ^ log2
  head_lt : head < 2 ^ log2
  tail_eq : tail = (head + (2 ^ log2 - avail)) % 2 ^ log2

/-- `PORT_BUFF_SIZE` and `PORT_BUFF_SIZE_BIG`, as `pk_count` of `make_buf`. -/
def pkCount (big : Bool) : ℕ := if big then 64 else 8

/-- `make_buf` when its `malloc` succeeds. -/
def makeBuf [Inhabited α] (big : Bool) : PortBuf α where
  log2 := Nat.log2 (pkCount big)
  avail := pkCount big
  head := 0
  tail := 0
  packet _ := default
  avail_le := by cases big <;> decide
  head_lt := by cases big <;> decide
  tail_eq := by cases big <;> decide

/-- `buf_is_empty`. -/
def bufIsEmpty (b : PortBuf α) : Prop := b.avail = 2 ^ b.log2

instance (b : PortBuf α) : Decidable (bufIsEmpty b) :=
  inferInstanceAs (Decidable (b.avail = 2 ^ b.log2))

/-- The loop of `buf_write`: the slots and the tail after the packets. -/
def bufStore (log2 : ℕ) : List α → (ℕ → α) → ℕ → (ℕ → α) × ℕ
  | [], packet, tail => (packet, tail)
  | p :: ps, packet, tail =>
    bufStore log2 ps (update packet tail p) (modpow2 (tail + 1) log2)

theorem bufStore_tail (log2 : ℕ) (ps : List α) (packet : ℕ → α) (tail : ℕ) :
    (bufStore log2 ps packet (tail % 2 ^ log2)).2 = (tail + ps.length) % 2 ^ log2 := by
  induction ps generalizing packet tail with
  | nil => rfl
  | cons p ps ih =>
    rw [bufStore, modpow2_eq, Nat.mod_add_mod, ih, List.length_cons]
    congr 1
    omega

/-- `buf_write`; `none` for `ERR_NOT_ENOUGH_BUFFER`. -/
def bufWrite (b : PortBuf α) (ps : List α) : Option (PortBuf α) :=
  if h : b.avail < ps.length then none
  else some
    { b with
      packet := (bufStore b.log2 ps b.packet b.tail).1
      tail := (bufStore b.log2 ps b.packet b.tail).2
      avail := b.avail - ps.length
      avail_le := (Nat.sub_le _ _).trans b.avail_le
      tail_eq := by
        have := b.avail_le
        rw [b.tail_eq, bufStore_tail]
        congr 1
        omega }

/-- `buf_read`; `none` for `ERR_NO_MSG`. -/
def bufRead (b : PortBuf α) : Option (α × PortBuf α) :=
  if h : bufIsEmpty b then none
  else some (b.packet b.head,
    { b with
      head := modpow2 (b.head + 1) b.log2
      avail := b.avail + 1
      avail_le := lt_of_le_of_ne b.avail_le h
      head_lt := by
        rw [modpow2_eq]
        exact Nat.mod_lt _ (Nat.two_pow_pos b.log2)
      tail_eq := by
        have := lt_of_le_of_ne b.avail_le h
        rw [b.tail_eq, modpow2_eq, Nat.mod_add_mod]
        congr 1
        omega })

/-! ### Objects -/

/-- The `status_t` values of the port code (`include/err.h`). -/
inductive PortStatus where
  | noError
  | invalidArgs
  | alreadyExists
  | busy
  | noMemory
  | notFound
  | notAllowed
  | tooBig
  | badHandle
  | notEnoughBuffer
  | partialWrite
  | timedOut
  | cancelled
  | objectDestroyed
  deriving DecidableEq

/-- `PORT_MODE_BROADCAST`, `PORT_MODE_UNICAST`, `PORT_MODE_BIG_BUFFER`. -/
def portModeBroadcast : ℕ := 0

def portModeUnicast : ℕ := 1

def portModeBigBuffer : ℕ := 2

/-- `PORT_NAME_LEN`. -/
def portNameLen : ℕ := 12

/-- `MAX_PORT_GROUP_COUNT`. -/
def maxPortGroupCount : ℕ := 256

/-- `write_port_t`; `closed` tells `WRITEPORT_MAGIC_X` from `WRITEPORT_MAGIC_W`. -/
structure WritePort (α : Type) where
  closed : Bool
  buf : Option (PortBuf α)
  rpList : List ℕ
  mode : ℕ
  name : List Char

/-- `read_port_t`.  Between `port_open` and `port_close` the buffer is there. -/
structure ReadPort (α : Type) where
  buf : PortBuf α
  ctx : ℕ
  wport : Option ℕ
  gport : Option ℕ

/-- `port_group_t`. -/
@[ext] structure PortGroup where
  rpList : List ℕ
  deriving DecidableEq

/-- What a `port_t` can point to, by its `magic`. -/
inductive Object (α : Type) where
  | writePort (wp : WritePort α)
  | readPort (rp : ReadPort α)
  | portGroup (pg : PortGroup)

/-- A thread inside `port_read`, with the timeout of its call. -/
structure Reader where
  thread : ℕ
  timeout : ℕ
  deriving DecidableEq

/-- A thread taken off the wait queue of `port` that has not run since, with its
`wait_queue_block_ret`. -/
structure Woken where
  reader : Reader
  port : ℕ
  ret : PortStatus
  deriving DecidableEq

/-- `INFINITE_TIME`. -/
def infiniteTime : ℕ := 2 ^ 32 - 1

/-- The port subsystem.  `reading` are the threads blocked or woken inside
`port_read`, which make no other call. -/
structure Ports (α : Type) where
  heap : ℕ → Option (Object α)
  writePortList : List ℕ
  wait : ℕ → List Reader
  woken : List Woken
  reading : List ℕ
  threadLock : Bool

/-- `port_init`. -/
def portInit : Ports α := ⟨fun _ => none, [], fun _ => [], [], [], false⟩

/-- What a call leaves its caller with. -/
inductive Result (α : Type) where
  | ret (status : PortStatus)
  | port (status : PortStatus) (h : ℕ)
  | packet (ctx : ℕ) (p : α)
  | blocks
  deriving DecidableEq

namespace Ports

/-- A store to the object at `h`. -/
def set (s : Ports α) (h : ℕ) (o : Object α) : Ports α :=
  { s with heap := update s.heap h (some o) }

/-- `free`. -/
def free (s : Ports α) (h : ℕ) : Ports α := { s with heap := update s.heap h none }

end Ports

/-! ### Wait queues -/

/-- `wait_queue_block` up to its `thread_resched`, for a nonzero timeout. -/
def waitQueueBlock (s : Ports α) (h : ℕ) (r : Reader) : Ports α :=
  { s with
    wait := update s.wait h (s.wait h ++ [r])
    reading := r.thread :: s.reading }

/-- `wait_queue_wake_one` on the queue of `h`, without rescheduling. -/
def waitQueueWakeOne (s : Ports α) (h : ℕ) (err : PortStatus) : Ports α × ℕ :=
  match s.wait h with
  | [] => (s, 0)
  | r :: l =>
    ({ s with
       wait := update s.wait h l
       woken := s.woken ++ [⟨r, h, err⟩] }, 1)

/-- `wait_queue_wake_all`, also of `wait_queue_destroy`. -/
def waitQueueWakeAll (s : Ports α) (h : ℕ) (err : PortStatus) : Ports α :=
  { s with
    wait := update s.wait h []
    woken := s.woken ++ (s.wait h).map fun r => ⟨r, h, err⟩ }

@[simp] theorem waitQueueWakeOne_heap (s : Ports α) (h : ℕ) (err : PortStatus) :
    (waitQueueWakeOne s h err).1.heap = s.heap := by
  unfold waitQueueWakeOne
  split <;> rfl

@[simp] theorem waitQueueWakeOne_threadLock (s : Ports α) (h : ℕ) (err : PortStatus) :
    (waitQueueWakeOne s h err).1.threadLock = s.threadLock := by
  unfold waitQueueWakeOne
  split <;> rfl

@[simp] theorem waitQueueWakeOne_writePortList (s : Ports α) (h : ℕ) (err : PortStatus) :
    (waitQueueWakeOne s h err).1.writePortList = s.writePortList := by
  unfold waitQueueWakeOne
  split <;> rfl

/-! ### Calls -/

/-- The search for `name` in `write_port_list`. -/
def findPort (s : Ports α) (name : List Char) : Option (ℕ × WritePort α) :=
  s.writePortList.findSome? fun w =>
    match s.heap w with
    | some (.writePort wp) => if wp.name = name then some (w, wp) else none
    | _ => none

/-- `port_create`, `calloc` returning `wp` and the `malloc` of `make_buf` doing or
not. -/
def portCreate [Inhabited α] (s : Ports α) (name : List Char) (mode : ℕ) (wp : Option ℕ)
    (bufOk : Bool) : Ports α × Result α :=
  if mode &&& portModeBroadcast ≠ 0 ∧ mode &&& portModeBigBuffer ≠ 0 then (s, .ret .invalidArgs)
  else if portNameLen ≤ name.length then (s, .ret .invalidArgs)
  else
    match findPort s name with
    | some (w, p) => if p.closed then (s, .ret .busy) else (s, .port .alreadyExists w)
    | none =>
      match wp, bufOk with
      | some w, true =>
        ({ s.set w (.writePort
            ⟨false, some (makeBuf (mode &&& portModeBigBuffer ≠ 0)), [], mode, name⟩) with
           writePortList := s.writePortList ++ [w] }, .port .noError w)
      | _, _ => (s, .ret .noMemory)

/-- `port_open`. -/
def portOpen [Inhabited α] (s : Ports α) (name : List Char) (ctx : ℕ) (rp : Option ℕ)
    (bufOk : Bool) : Ports α × Result α :=
  match rp, bufOk with
  | some r, true =>
    match findPort s name with
    | none => (s, .ret .notFound)
    | some (w, wp) =>
      match wp.buf with
      | some b =>
        -- the first read port: the circular buffer moves over
        ((s.set w (.writePort { wp with buf := none, rpList := wp.rpList ++ [r] })).set r
          (.readPort ⟨b, ctx, some w, none⟩), .port .noError r)
      | none =>
        if wp.mode &&& portModeUnicast ≠ 0 then (s, .ret .notAllowed)
        else
          ((s.set w (.writePort { wp with rpList := wp.rpList ++ [r] })).set r
            (.readPort ⟨makeBuf false, ctx, some w, none⟩), .port .noError r)
  | _, _ => (s, .ret .noMemory)

/-- `rp->gport = NULL` for each of the ports. -/
def clearGport (s : Ports α) : List ℕ → Ports α
  | [] => s
  | r :: rs =>
    match s.heap r with
    | some (.readPort rp) => clearGport (s.set r (.readPort { rp with gport := none })) rs
    | _ => clearGport s rs

/-- The loop of `port_group` over the handles left, after `done`; whether it got
through. -/
def groupLoop (s : Ports α) (g : ℕ) : List ℕ → List ℕ → Option (Ports α × Bool)
  | _, [] => some (s, true)
  | done, r :: rs =>
    match s.heap r with
    | none => none
    | some (.readPort rp) =>
      if rp.gport.isSome then some (clearGport s done, false)
      else groupLoop ((s.set r (.readPort { rp with gport := some g })).set g
        (.portGroup ⟨done ++ [r]⟩)) g (done ++ [r]) rs
    | some _ => some (clearGport s done, false)

/-- `port_group`. -/
def portGroup (s : Ports α) (ports : List ℕ) (pg : Option ℕ) : Option (Ports α × Result α) :=
  if maxPortGroupCount < ports.length then some (s, .ret .tooBig)
  else
    match pg with
    | none => some (s, .ret .noMemory)
    | some g =>
      (groupLoop (s.set g (.portGroup ⟨[]⟩)) g [] ports).map fun p =>
        if p.2 then (p.1, .port .noError g) else (p.1.free g, .ret .badHandle)

/-- `port_group_add`. -/
def portGroupAdd (s : Ports α) (g r : ℕ) : Option (Ports α × Result α) :=
  if r = 0 ∨ g = 0 then some (s, .ret .invalidArgs)
  else
    match s.heap g with
    | none => none
    | some (.portGroup pg) =>
      match s.heap r with
      | none => none
      | some (.readPort rp) =>
        if rp.gport.isSome then some (s, .ret .badHandle)
        else if pg.rpList.length = maxPortGroupCount then some (s, .ret .tooBig)
        else
          let s' := (s.set r (.readPort { rp with gport := some g })).set g
            (.portGroup ⟨pg.rpList ++ [r]⟩)
          some (if bufIsEmpty rp.buf then s' else (waitQueueWakeOne s' g .noError).1,
            .ret .noError)
      | some _ => some (s, .ret .badHandle)
    | some _ => some (s, .ret .invalidArgs)

/-- `port_group_remove`: `rp->gport` stays as it is, and the return for a port that
is not in the list keeps the lock. -/
def portGroupRemove (s : Ports α) (g r : ℕ) : Option (Ports α × Result α) :=
  if r = 0 ∨ g = 0 then some (s, .ret .invalidArgs)
  else
    match s.heap g with
    | none => none
    | some (.portGroup pg) =>
      match s.heap r with
      | none => none
      | some (.readPort rp) =>
        if rp.gport ≠ some g then some (s, .ret .badHandle)
        else if r ∈ pg.rpList then
          some (s.set g (.portGroup ⟨pg.rpList.erase r⟩), .ret .noError)
        else some ({ s with threadLock := true }, .ret .badHandle)
      | some _ => some (s, .ret .badHandle)
    | some _ => some (s, .ret .invalidArgs)

/-- The wake-up of `port_write` for one reader: a thread of the group, else one of
the port itself. -/
def wakeReader (s : Ports α) (r : ℕ) (gport : Option ℕ) : Option (Ports α) :=
  match gport with
  | none => some (waitQueueWakeOne s r .noError).1
  | some g =>
    match s.heap g with
    | some (.portGroup _) =>
      if (waitQueueWakeOne s g .noError).2 = 0 then some (waitQueueWakeOne s r .noError).1
      else some (waitQueueWakeOne s g .noError).1
    | _ => none

/-- One turn of the loop of `port_write`, and whether the packets went in. -/
def writeReader (s : Ports α) (r : ℕ) (pk : List α) : Option (Ports α × Bool) :=
  match s.heap r with
  | some (.readPort rp) =>
    match bufWrite rp.buf pk with
    | none => some (s, false)
    | some b => (wakeReader (s.set r (.readPort { rp with buf := b })) r rp.gport).map (·, true)
  | _ => none

/-- The loop of `port_write` over the readers. -/
def writeLoop (s : Ports α) (pk : List α) (status : PortStatus) :
    List ℕ → Option (Ports α × PortStatus)
  | [] => some (s, status)
  | r :: rs =>
    (writeReader s r pk).bind fun p =>
      writeLoop p.1 pk (if p.2 then status else .partialWrite) rs

/-- `port_write` of the packets `pk`. -/
def portWrite (s : Ports α) (w : ℕ) (pk : List α) : Option (Ports α × Result α) :=
  if w = 0 then some (s, .ret .invalidArgs)
  else
    match s.heap w with
    | none => none
    | some (.writePort wp) =>
      if wp.closed then some (s, .ret .badHandle)
      else
        match wp.buf with
        | some b =>
          match bufWrite b pk with
          | none => some (s, .ret .notEnoughBuffer)
          | some b' => some (s.set w (.writePort { wp with buf := some b' }), .ret .noError)
        | none => (writeLoop s pk .noError wp.rpList).map fun p => (p.1, .ret p.2)
    | some _ => some (s, .ret .badHandle)

/-- `wait_queue_block` as the read calls it. -/
def blockReader (s : Ports α) (h : ℕ) (t : Reader) : Ports α × Result α :=
  if t.timeout = 0 then (s, .ret .timedOut) else (waitQueueBlock s h t, .blocks)

/-- `read_no_lock`, up to its `wait_queue_block`. -/
def readNoLock (s : Ports α) (r : ℕ) (rp : ReadPort α) (t : Reader) : Ports α × Result α :=
  match bufRead rp.buf with
  | some (p, b) => (s.set r (.readPort { rp with buf := b }), .packet rp.ctx p)
  | none => blockReader s r t

/-- The loop of `port_read` over the ports of the group `g`. -/
def readGroup (s : Ports α) (g : ℕ) (t : Reader) : List ℕ → Option (Ports α × Result α)
  | [] => some (blockReader s g t)
  | r :: rs =>
    match s.heap r with
    | some (.readPort rp) =>
      match bufRead rp.buf with
      | some (p, b) => some (s.set r (.readPort { rp with buf := b }), .packet rp.ctx p)
      | none => readGroup s g t rs
    | _ => none

/-- `port_read` from its `THREAD_LOCK`, or from the return of a `wait_queue_block`
with `NO_ERROR`, to its return or its next `wait_queue_block`. -/
def readLocked (s : Ports α) (h : ℕ) (t : Reader) : Option (Ports α × Result α) :=
  match s.heap h with
  | none => none
  | some (.readPort rp) => some (readNoLock s h rp t)
  | some (.portGroup pg) => readGroup s h t pg.rpList
  | some (.writePort _) => some (s, .ret .badHandle)

/-- `port_read`. -/
def portRead (s : Ports α) (h : ℕ) (t : Reader) : Option (Ports α × Result α) :=
  if h = 0 then some (s, .ret .invalidArgs) else readLocked s h t

/-- `port_read` by `t` when the scheduler runs it again. -/
def portResume (s : Ports α) (t : ℕ) : Option (Ports α × Result α) :=
  match s.woken.find? (·.reader.thread = t) with
  | none => none
  | some w =>
    let s' := { s with woken := s.woken.erase w, reading := s.reading.erase t }
    if w.ret = .noError then readLocked s' w.port w.reader else some (s', .ret w.ret)

/-- `wait_queue_timeout_handler` for a thread blocked on the queue of `h`. -/
def portTimer (s : Ports α) (h t : ℕ) : Option (Ports α × Result α) :=
  match (s.wait h).find? (·.thread = t) with
  | none => none
  | some r =>
    if r.timeout = infiniteTime then none
    else some
      ({ s with
         wait := update s.wait h ((s.wait h).erase r)
         woken := s.woken ++ [⟨r, h, .timedOut⟩] }, .blocks)

/-- The loop of `port_destroy` over the readers. -/
def destroyLoop (s : Ports α) : List ℕ → Option (Ports α)
  | [] => some s
  | r :: rs =>
    match s.heap r with
    | some (.readPort rp) =>
      let s₁ := waitQueueWakeAll s r .cancelled
      match rp.gport with
      | none => destroyLoop (s₁.set r (.readPort { rp with wport := none })) rs
      | some g =>
        match s.heap g with
        | some (.portGroup _) =>
          destroyLoop ((waitQueueWakeAll s₁ g .cancelled).set r
            (.readPort { rp with wport := none })) rs
        | _ => none
    | _ => none

/-- `port_destroy`. -/
def portDestroy (s : Ports α) (w : ℕ) : Option (Ports α × Result α) :=
  if w = 0 then some (s, .ret .invalidArgs)
  else
    match s.heap w with
    | none => none
    | some (.writePort wp) =>
      if wp.closed then
        let s₁ := { s with writePortList := s.writePortList.erase w }
        match wp.buf with
        | some _ => some (s₁.free w, .ret .noError)
        | none => (destroyLoop s₁ wp.rpList).map fun s₂ => (s₂.free w, .ret .noError)
      else some (s, .ret .badHandle)
    | some _ => some (s, .ret .badHandle)

/-- The first half of `port_close` for a read port: off the list of its write port,
which takes the buffer back from the last reader. -/
def closeWport (s : Ports α) (r : ℕ) (rp : ReadPort α) : Option (Ports α) :=
  match rp.wport with
  | none => some s
  | some w =>
    match s.heap w with
    | some (.writePort wp) =>
      if r ∈ wp.rpList then
        some (s.set w (.writePort { wp with
          rpList := wp.rpList.erase r
          buf := if wp.rpList.erase r = [] then some rp.buf else wp.buf }))
      else none
    | _ => none

/-- The second half: off the list of its group. -/
def closeGport (s : Ports α) (r : ℕ) (rp : ReadPort α) : Option (Ports α) :=
  match rp.gport with
  | none => some s
  | some g =>
    match s.heap g with
    | some (.portGroup pg) =>
      -- a node that was deleted before has no neighbours
      if r ∈ pg.rpList then some (s.set g (.portGroup ⟨pg.rpList.erase r⟩)) else none
    | _ => none

/-- `port_close`. -/
def portClose (s : Ports α) (h : ℕ) : Option (Ports α × Result α) :=
  if h = 0 then some (s, .ret .invalidArgs)
  else
    match s.heap h with
    | none => none
    | some (.readPort rp) =>
      (closeWport s h rp).bind fun s₁ => (closeGport s₁ h rp).map fun s₂ =>
        ((waitQueueWakeAll s₂ h .objectDestroyed).free h, .ret .noError)
    | some (.portGroup pg) =>
      some ((clearGport (waitQueueWakeAll s h .objectDestroyed) pg.rpList).free h, .ret .noError)
    | some (.writePort wp) =>
      if wp.closed then some (s, .ret .badHandle)
      else some (s.set h (.writePort { wp with closed := true }), .ret .noError)

/-! ### Steps -/

/-- A call, the timer of a blocked reader, or the scheduler running a woken one. -/
inductive Call (α : Type) where
  | create (name : List Char) (mode : ℕ) (wp : Option ℕ) (bufOk : Bool)
  | openPort (name : List Char) (ctx : ℕ) (rp : Option ℕ) (bufOk : Bool)
  | group (ports : List ℕ) (pg : Option ℕ)
  | groupAdd (g r : ℕ)
  | groupRemove (g r : ℕ)
  | write (w : ℕ) (pk : List α)
  | read (h : ℕ) (t : Reader)
  | resume (t : ℕ)
  | timer (h t : ℕ)
  | destroy (w : ℕ)
  | close (h : ℕ)
  deriving DecidableEq

/-- `calloc` hands out `NULL`, or an address that is not in use. -/
def Ports.Fresh (s : Ports α) : Option ℕ → Prop
  | none => True
  | some a => a ≠ 0 ∧ s.heap a = none

instance (s : Ports α) : ∀ a : Option ℕ, Decidable (s.Fresh a)
  | none => .isTrue trivial
  | some a => decidable_of_iff (a ≠ 0 ∧ (s.heap a).isNone = true) (by simp [Ports.Fresh])

/-- One step.  A call that takes the lock does not get through while it is held. -/
def portStep [Inhabited α] (s : Ports α) (c : Call α) : Option (Ports α × Result α) :=
  if s.threadLock then none
  else
    match c with
    | .create name mode wp bufOk =>
      if s.Fresh wp then some (portCreate s name mode wp bufOk) else none
    | .openPort name ctx rp bufOk =>
      if s.Fresh rp then some (portOpen s name ctx rp bufOk) else none
    | .group ports pg => if s.Fresh pg then portGroup s ports pg else none
    | .groupAdd g r => portGroupAdd s g r
    | .groupRemove g r => portGroupRemove s g r
    | .write w pk => portWrite s w pk
    | .read h t => if t.thread ∈ s.reading then none else portRead s h t
    | .resume t => portResume s t
    | .timer h t => portTimer s h t
    | .destroy w => portDestroy s w
    | .close h => portClose s h

/-- `portStep` without its result. -/
def portNext [Inhabited α] (s : Ports α) (c : Call α) : Option (Ports α) :=
  (portStep s c).map Prod.fst

end Port
end LittleKernel
