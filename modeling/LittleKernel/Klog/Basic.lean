/-
# The kernel log: `lib/klog/klog.c`

A buffer holds a `struct klog_buffer_header` of 20 bytes and, one behind the other, the
logs: a `struct klog_header` of 20 bytes and `size` bytes of data, used as a ring.

| header of the buffer | at | header of a log | at |
| --- | ---: | --- | ---: |
| `magic` | 0 | `magic` | 0 |
| `header_crc32` | 4 | `size` | 4 |
| `log_count` | 8 | `head` | 8 |
| `current_log` | 12 | `tail` | 12 |
| `total_size` | 16 | `data_checksum` | 16 |

Memory is a function from the offsets of the buffer to bytes.  `klog_buf` is its start and
`klog` the offset of a log.  `w` is the width of `size_t`, and `crc` the function `crc32`
of `lib/cksum`, of which nothing is assumed.  `klog_printf` is the pieces of output that
`_printf_engine` hands to `_klog_output_func`.  The `DEBUG_ASSERT`s are left out.
-/

import LittleKernel.Lib.Fields
import LittleKernel.Lib.Word
import LittleKernel.Lib.Machine

namespace LittleKernel
namespace Klog

open Memory Word Bytes

/-- `MAX_KLOG_SIZE`. -/
def maxKlogSize : ℕ := 32 * 1024

/-- `KLOG_BUFFER_HEADER_MAGIC`, `'KLGB'`. -/
def klogBufferHeaderMagic : ℕ := 0x4b4c4742

/-- `KLOG_HEADER_MAGIC`, `'KLOG'`. -/
def klogHeaderMagic : ℕ := 0x4b4c4f47

/-- The buffer `klog_buf` and the log `klog`. -/
structure State where
  mem : ℕ → UInt8
  klog : ℕ

section Headers

/-- The walk of `find_nth_log` from the log at `k`. -/
def findNthLogFrom (m : ℕ → UInt8) : ℕ → ℕ → ℕ
  | 0, k => k
  | log + 1, k => findNthLogFrom m log (k + 20 + load32 m (k + 4))

/-- `find_nth_log`. -/
def findNthLog (m : ℕ → UInt8) (log : ℕ) : ℕ := findNthLogFrom m log 20

variable (crc : List UInt8 → UInt32)

/-- `get_checksum_klog_buffer_header`: all of the header behind `header_crc32`. -/
def getChecksumKlogBufferHeader (m : ℕ → UInt8) : ℕ := (crc (window m 8 12)).toNat

/-- `checksum_klog_buffer_header`. -/
def checksumKlogBufferHeader (m : ℕ → UInt8) : ℕ → UInt8 :=
  store32 m 4 (getChecksumKlogBufferHeader crc m)

/-- The loop of `get_checksum_klog_data`, over the first `n` bytes. -/
def checksumLoop (m : ℕ → UInt8) (k : ℕ) : ℕ → ℕ
  | 0 => 0
  | n + 1 => u32 (checksumLoop m k n + (m (k + 20 + n)).toNat)

/-- `get_checksum_klog_data`. -/
def getChecksumKlogData (m : ℕ → UInt8) (k : ℕ) : ℕ := checksumLoop m k (load32 m (k + 4))

/-- `checksum_klog_data`. -/
def checksumKlogData (m : ℕ → UInt8) (k : ℕ) : ℕ → UInt8 :=
  store32 m (k + 16) (getChecksumKlogData m k)

/-- `klog_set_current_buffer`; `none` is `ERR_INVALID_ARGS`. -/
def klogSetCurrentBuffer (buffer : ℕ) (s : State) : Option State :=
  if load32 s.mem 8 ≤ buffer then none
  else
    let klog := findNthLog s.mem buffer
    if buffer ≠ load32 s.mem 12 then
      some ⟨checksumKlogBufferHeader crc (store32 s.mem 12 buffer), klog⟩
    else some ⟨s.mem, klog⟩

end Headers

section Create

/-- What a call of `klog_create` comes to: `ERR_INVALID_ARGS`, a write outside the buffer, or
a log. -/
inductive Created
  | invalidArgs
  | outOfBounds
  | noError (s : State)

/-- The size that `klog_create` asks for.  `4 * count` is a product of `uint`s. -/
def sizeNeeded (w count : ℕ) : ℕ := (20 + 20 * count + u32 (4 * count)) % 2 ^ w

/-- `bufsize`. -/
def bufsize (w len count : ℕ) : ℕ :=
  u32 ((len + (2 ^ w - 20) + (2 ^ w - 20 * count % 2 ^ w)) % 2 ^ w) / count / 4 * 4

/-- One pass of the loop of `klog_create`: the log at `ptr`. -/
def createLog (bufsize ptr : ℕ) (m : ℕ → UInt8) : ℕ → UInt8 :=
  let m := store32 m ptr klogHeaderMagic
  let m := store32 m (ptr + 4) bufsize
  let m := store32 m (ptr + 8) 0
  let m := store32 m (ptr + 12) 0
  let m := store32 m (ptr + 16) 0
  let m := copy m (ptr + 20) (fun _ => 0) 0 bufsize
  checksumKlogData m ptr

/-- The loop of `klog_create`. -/
def createLogs (len bufsize : ℕ) : ℕ → ℕ → (ℕ → UInt8) → Option (ℕ → UInt8)
  | 0, _, m => some m
  | count + 1, ptr, m =>
    if ptr + 20 + bufsize ≤ len then
      createLogs len bufsize count (ptr + 20 + bufsize) (createLog bufsize ptr m)
    else none

variable (crc : List UInt8 → UInt32)

/-- The buffer header that `klog_create` sets up. -/
def createHeader (len count : ℕ) (m : ℕ → UInt8) : ℕ → UInt8 :=
  let m := store32 m 0 klogBufferHeaderMagic
  let m := store32 m 8 count
  let m := store32 m 12 0
  let m := store32 m 16 len
  checksumKlogBufferHeader crc m

/-- The checks that `klog_create` makes of a buffer. -/
def Accepted (w len count : ℕ) : Prop := count ≠ 0 ∧ sizeNeeded w count ≤ len

instance (w len count : ℕ) : Decidable (Accepted w len count) :=
  inferInstanceAs (Decidable (_ ∧ _))

/-- `klog_create`. -/
def klogCreate (w : ℕ) (ptr : Option (ℕ → UInt8)) (len count : ℕ) : Created :=
  match ptr with
  | none => .invalidArgs
  | some m =>
    if ¬Accepted w len count then .invalidArgs
    else
      match createLogs len (bufsize w len count) count 20 (createHeader crc len count m) with
      | none => .outOfBounds
      | some m =>
        match klogSetCurrentBuffer crc 0 ⟨m, 20⟩ with
        | none => .invalidArgs
        | some s => .noError s

end Create

section Recover

/-- One pass of the loop of `klog_recover`: the log at `k` is valid. -/
def validLog (m : ℕ → UInt8) (k : ℕ) : Bool :=
  load32 m k = klogHeaderMagic ∧
  ¬(0 < load32 m (k + 4) ∧ load32 m (k + 4) % 4 ≠ 0) ∧
  load32 m (k + 4) ≤ maxKlogSize ∧
  load32 m (k + 8) < load32 m (k + 4) ∧
  load32 m (k + 12) < load32 m (k + 4) ∧
  (load32 m (k + 16) ≠ 0 → getChecksumKlogData m k = load32 m (k + 16))

/-- The loop of `klog_recover`. -/
def validLogs (m : ℕ → UInt8) : ℕ → ℕ → Bool
  | 0, _ => true
  | n + 1, k => validLog m k && validLogs m n (k + 20 + load32 m (k + 4))

variable (crc : List UInt8 → UInt32)

/-- `klog_recover`; `none` is an error. -/
def klogRecover (ptr : Option (ℕ → UInt8)) : Option State :=
  match ptr with
  | none => none
  | some m =>
    if load32 m 0 ≠ klogBufferHeaderMagic then none
    else if getChecksumKlogBufferHeader crc m ≠ load32 m 4 then none
    else if maxKlogSize < load32 m 16 then none
    else if load32 m 8 ≤ load32 m 12 then none
    else if !validLogs m (load32 m 8) 20 then none
    else klogSetCurrentBuffer crc (load32 m 12) ⟨m, 20⟩

end Recover

section Ring

/-- A position moved by one or more, back to the front of the ring at its end. -/
def wrapped (size pos : ℕ) : ℕ := if size ≤ pos then sub32 pos size else pos

/-- One pass of the loop of `klog_puts_len`, the checksum apart. -/
def putByte (k : ℕ) (c : UInt8) (m : ℕ → UInt8) : ℕ → UInt8 :=
  let m := store m (k + 20 + load32 m (k + 8)) [c]
  let newhead := wrapped (load32 m (k + 4)) (u32 (load32 m (k + 8) + 1))
  -- the head has come round to the tail, which gives up its oldest byte
  let m :=
    if load32 m (k + 12) = newhead then
      store32 m (k + 12) (wrapped (load32 m (k + 4)) (u32 (load32 m (k + 12) + 1)))
    else m
  store32 m (k + 8) newhead

/-- `deltasum` after one pass. -/
def deltasum (m : ℕ → UInt8) (k sum : ℕ) (c : UInt8) : ℕ :=
  u32 (sum + (c.toNat + (2 ^ 32 - (m (k + 20 + load32 m (k + 8))).toNat)))

/-- The loop of `klog_puts_len`.  The string at `str` ends with `str`, with a NUL or at `len`. -/
def putsLoop (k : ℕ) : List UInt8 → ℕ → ℕ → (ℕ → UInt8) → (ℕ → UInt8) × ℕ
  | [], _, sum, m => (m, sum)
  | _ :: _, 0, sum, m => (m, sum)
  | c :: str, len + 1, sum, m =>
    if c = 0 then (m, sum) else putsLoop k str len (deltasum m k sum c) (putByte k c m)

/-- `klog_puts_len`. -/
def klogPutsLen (str : List UInt8) (len : ℕ) (s : State) : State :=
  let r := putsLoop s.klog str len 0 s.mem
  { s with mem := store32 r.1 (s.klog + 16) (u32 (load32 r.1 (s.klog + 16) + r.2)) }

/-- `klog_puts`, with `SIZE_MAX` for the length. -/
def klogPuts (w : ℕ) (str : CString) (s : State) : State := klogPutsLen str.bytes (2 ^ w - 1) s

/-- `klog_printf` and `klog_vprintf`. -/
def klogPrintf (pieces : List (List UInt8 × ℕ)) (s : State) : State :=
  pieces.foldl (fun s p => klogPutsLen p.1 p.2 s) s

/-- `klog_get_buffer`: the runs of the log as offsets and lengths; `none` is
`ERR_INVALID_ARGS`. -/
def klogGetBuffer (buffer : ℤ) (s : State) : Option (List (ℕ × ℕ)) :=
  if 0 ≤ buffer ∧ (load32 s.mem 8 : ℤ) ≤ buffer then none
  else
    let k := if buffer < 0 then s.klog else findNthLog s.mem buffer.toNat
    let head := load32 s.mem (k + 8)
    let tail := load32 s.mem (k + 12)
    if head = tail then some []
    else if tail < head then some [(k + 20 + tail, head - tail)]
    else some [(k + 20 + tail, sub32 (load32 s.mem (k + 4)) tail), (k + 20, head)]

/-- The tail of `klog` behind `offset` bytes that were read. -/
def advanceTail (k offset : ℕ) (m : ℕ → UInt8) : ℕ → UInt8 :=
  store32 m (k + 12) (wrapped (load32 m (k + 4)) (u32 (load32 m (k + 12) + offset)))

/-- `klog_read`: the bytes that are read, `none` for an error.  The tail that moves is the one
of `klog`, whatever log was read. -/
def klogRead (len : ℕ) (bufId : ℤ) (s : State) : Option (List UInt8) × State :=
  match klogGetBuffer bufId s with
  | none => (none, s)
  | some [] => (some [], s)
  | some (v :: vec) =>
    let buf := window s.mem v.1 (min len v.2)
    let buf :=
      match vec with
      | [] => buf
      | v' :: _ =>
        if len - buf.length ≠ 0 then
          buf ++ window s.mem v'.1 (min (len - buf.length) v'.2)
        else buf
    (some buf, { s with mem := advanceTail s.klog buf.length s.mem })

end Ring

section Calls

/-- The calls on a log that was set up. -/
inductive Op
  | puts (str : CString)
  | printf (pieces : List (List UInt8 × ℕ))
  | read (len : ℕ) (bufId : ℤ)
  | setCurrentBuffer (buffer : ℕ)

/-- What they answer: nothing, the bytes that were read, or whether the log was selected. -/
inductive Answer
  | done
  | bytes (l : Option (List UInt8))
  | selected (ok : Bool)
  deriving DecidableEq

def step (crc : List UInt8 → UInt32) (w : ℕ) (s : State) : Op → Option (State × Answer)
  | .puts str => some (klogPuts w str s, .done)
  | .printf pieces => some (klogPrintf pieces s, .done)
  | .read len bufId => some ((klogRead len bufId s).2, .bytes (klogRead len bufId s).1)
  | .setCurrentBuffer buffer =>
    match klogSetCurrentBuffer crc buffer s with
    | none => some (s, .selected false)
    | some s => some (s, .selected true)

end Calls

end Klog
end LittleKernel
