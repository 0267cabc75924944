/-
# The circular buffer: `lib/cbuf/cbuf.c`

`cbuf_t` keeps a buffer of `2 ^ len_pow2` bytes, the `uint` positions `head`
(next byte written) and `tail` (next byte read), and an event that is signalled
while there is something to read.  One byte always stays unused: `head == tail`
is the empty buffer.

Every function below is the critical section of its C namesake, under
`cbuf->lock`.  The `canreschedule` argument of the writers only decides on a
preemption after the unlock and is left out.  `none` is a call that does not
return: a `DEBUG_ASSERT` that fails in a build that compiles it in
(`LK_DEBUGLEVEL > 1`, `lib/libc/include/assert.h`; `engine.mk` sets 2 unless
told otherwise), or a blocking read with nothing to return.  A pointer
argument that may be `NULL` is an `Option`.
-/

import LittleKernel.Include
import LittleKernel.Lib.Memory

namespace LittleKernel
namespace Cbuf

open Word

/-! ### State -/

/-- `cbuf_t`, the lock apart; `buf i` is the byte at `buf + i` and `event` the
`signaled` flag of the event. -/
structure CbufT where
  head : ℕ
  tail : ℕ
  lenPow2 : ℕ
  buf : ℕ → UInt8
  event : Bool

/-- `cbuf_initialize_etc`. -/
def cbufInitializeEtc (lvl len : ℕ) (buf : ℕ → UInt8) : Option CbufT :=
  if DebugAssert lvl (0 < len) ∧ DebugAssert lvl (ispow2 len) then
    some { head := 0, tail := 0, lenPow2 := log2Uint len, buf := buf, event := false }
  else none

/-- `INC_POINTER(cbuf, ptr, inc)`. -/
def incPointer (c : CbufT) (ptr inc : ℕ) : ℕ := modpow2 (ptr + inc) c.lenPow2

/-- `cbuf_space_used`. -/
def cbufSpaceUsed (c : CbufT) : ℕ := modpow2 (sub32 c.head c.tail) c.lenPow2

/-- `cbuf_space_avail`. -/
def cbufSpaceAvail (c : CbufT) : ℕ :=
  sub32 (sub32 (valpow2 c.lenPow2) (modpow2 (sub32 c.head c.tail) c.lenPow2)) 1

/-- `cbuf_size`. -/
def cbufSize (c : CbufT) : ℕ := 2 ^ c.lenPow2

/-! ### Writing -/

/-- The bytes `cbuf_write` takes: those of `buf`, or zeros when it is `NULL`. -/
def source (src : Option (ℕ → UInt8)) : ℕ → UInt8 := src.getD fun _ => 0

/-- `write_len` of one pass of the loop of `cbuf_write`. -/
def writeLen (c : CbufT) (rest : ℕ) : ℕ :=
  if c.tail ≤ c.head then
    -- with `tail` at 0 the last byte stays free, or `head` would meet `tail`
    if c.tail = 0 then min (sub32 (sub32 (valpow2 c.lenPow2) c.head) 1) rest
    else min (sub32 (valpow2 c.lenPow2) c.head) rest
  else min (sub32 (sub32 c.tail c.head) 1) rest

/-- One pass of the loop of `cbuf_write`: `w` bytes from `buf + pos` to `head`. -/
def writePass (c : CbufT) (src : Option (ℕ → UInt8)) (pos w : ℕ) : CbufT :=
  { c with buf := Memory.copy c.buf c.head (source src) pos w, head := incPointer c c.head w }

/-- The loop of `cbuf_write`. -/
def cbufWriteLoop (c : CbufT) (src : Option (ℕ → UInt8)) (len pos : ℕ) : CbufT × ℕ :=
  if pos < len ∧ 0 < cbufSpaceAvail c then
    if writeLen c (len - pos) = 0 then (c, pos)
    else cbufWriteLoop (writePass c src pos (writeLen c (len - pos))) src len
      (pos + writeLen c (len - pos))
  else (c, pos)
termination_by len - pos
decreasing_by omega

/-- `cbuf_write`: the new state and the number of bytes written. -/
def cbufWrite (lvl : ℕ) (c : CbufT) (src : Option (ℕ → UInt8)) (len : ℕ) : Option (CbufT × ℕ) :=
  if DebugAssert lvl (len < valpow2 c.lenPow2) then
    let r := cbufWriteLoop c src len 0
    some ({ r.1 with event := if r.1.head ≠ r.1.tail then true else r.1.event }, r.2)
  else none

/-- `cbuf_write_char`. -/
def cbufWriteChar (c : CbufT) (ch : UInt8) : CbufT × ℕ :=
  if 0 < cbufSpaceAvail c then
    let head := incPointer c c.head 1
    ({ c with
        buf := Memory.copy c.buf c.head (fun _ => ch) 0 1
        head := head
        event := if head ≠ c.tail then true else c.event }, 1)
  else (c, 0)

/-! ### Reading -/

/-- `read_len` of one pass of the loop of `cbuf_read`. -/
def readLen (c : CbufT) (rest : ℕ) : ℕ :=
  if c.tail < c.head then min (sub32 c.head c.tail) rest
  else min (sub32 (valpow2 c.lenPow2) c.tail) rest

/-- The copy of one pass of `cbuf_read`, skipped when `buf` is `NULL`. -/
def readCopy (c : CbufT) (dst : Option (ℕ → UInt8)) (pos r : ℕ) : Option (ℕ → UInt8) :=
  dst.map fun d => Memory.copy d pos c.buf c.tail r

/-- The loop of `cbuf_read`.  The guard on `readLen` only makes the recursion
plainly terminating: a pass with something left always reads. -/
def cbufReadLoop (c : CbufT) (dst : Option (ℕ → UInt8)) (buflen pos : ℕ) :
    CbufT × Option (ℕ → UInt8) × ℕ :=
  if pos < buflen ∧ c.tail ≠ c.head ∧ 0 < readLen c (buflen - pos) then
    cbufReadLoop { c with tail := incPointer c c.tail (readLen c (buflen - pos)) }
      (readCopy c dst pos (readLen c (buflen - pos))) buflen (pos + readLen c (buflen - pos))
  else (c, dst, pos)
termination_by buflen - pos
decreasing_by omega

/-- The critical section of `cbuf_read`. -/
def cbufReadLocked (lvl : ℕ) (c : CbufT) (dst : Option (ℕ → UInt8)) (buflen : ℕ) :
    Option (CbufT × Option (ℕ → UInt8) × ℕ) :=
  if c.tail ≠ c.head then
    let r := cbufReadLoop c dst buflen 0
    if r.1.tail = r.1.head then
      if DebugAssert lvl (0 < r.2.2) then some ({ r.1 with event := false }, r.2) else none
    else some r
  else some (c, dst, 0)

/-- `cbuf_read`.  A blocking call sleeps in `event_wait` unless the event is
signalled, and goes back to sleep (`goto retry`) after a pass that returned
nothing; such a pass leaves the buffer as it was. -/
def cbufRead (lvl : ℕ) (c : CbufT) (dst : Option (ℕ → UInt8)) (buflen : ℕ) (block : Bool) :
    Option (CbufT × Option (ℕ → UInt8) × ℕ) :=
  if block then
    if c.event then
      (cbufReadLocked lvl c dst buflen).filter fun r => r.2.2 != 0
    else none
  else cbufReadLocked lvl c dst buflen

/-- `cbuf_reset`. -/
def cbufReset (lvl : ℕ) (c : CbufT) : Option CbufT :=
  (cbufRead lvl c none (cbufSize c) false).map fun r => r.1

/-- The critical section of `cbuf_read_char`: the byte read, if any. -/
def cbufReadCharLocked (c : CbufT) : CbufT × Option UInt8 :=
  if c.tail ≠ c.head then
    let tail := incPointer c c.tail 1
    ({ c with tail := tail, event := if tail = c.head then false else c.event },
      some (c.buf c.tail))
  else (c, none)

/-- `cbuf_read_char`. -/
def cbufReadChar (c : CbufT) (block : Bool) : Option (CbufT × Option UInt8) :=
  if block then
    if c.event ∧ (cbufReadCharLocked c).2 ≠ none then some (cbufReadCharLocked c) else none
  else some (cbufReadCharLocked c)

/-- `iovec_t`: `base` is an offset into the buffer, `none` the `NULL` pointer. -/
structure Iovec where
  base : Option ℕ
  len : ℕ

/-- The bytes a region describes. -/
def Iovec.bytes (r : Iovec) (buf : ℕ → UInt8) : List UInt8 :=
  match r.base with
  | some b => Memory.window buf b r.len
  | none => []

/-- `cbuf_peek`: the two regions and the number of bytes in them. -/
def cbufPeek (lvl : ℕ) (c : CbufT) : Option (Iovec × Iovec × ℕ) :=
  let ret := cbufSpaceUsed c
  let sz := cbufSize c
  if DebugAssert lvl (c.tail < sz) ∧ DebugAssert lvl (ret ≤ sz) then
    let base := if ret ≠ 0 then some c.tail else none
    if sz < ret + c.tail then
      some (⟨base, sz - c.tail⟩, ⟨some 0, ret - (sz - c.tail)⟩, ret)
    else some (⟨base, ret⟩, ⟨none, 0⟩, ret)
  else none

end Cbuf
end LittleKernel
