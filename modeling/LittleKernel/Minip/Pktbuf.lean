/-
# Packet buffers

`lib/minip/pktbuf.c`: a packet is a part of a buffer, `dlen` bytes from `data` on.
`pktbuf_consume` takes bytes off its front, `pktbuf_consume_tail` off its end;
`pktbuf_prepend` and `pktbuf_append` grow it within the buffer and panic where that has no room.

Pointers are positions in the buffer.  A header that was consumed can still be read, as long as
it lies in the buffer: `Pktbuf.read` is a read of a packet's memory, and `Crash.outside` one that
leaves it.
-/

import Mathlib.Algebra.Group.Nat.Defs
import LittleKernel.Lib.Memory

namespace LittleKernel
namespace Minip

open Memory

/-- What brings the machine down. -/
inductive Crash where
  /-- A read outside the packet buffer. -/
  | outside
  /-- A read or a call through `NULL`. -/
  | null
  /-- `panic`. -/
  | panic
  /-- A `DEBUG_ASSERT` that fails. -/
  | assertion
  deriving DecidableEq

/-- The computation comes to an end. -/
def Safe {α : Type} (x : Except Crash α) : Prop := ∃ a, x = .ok a

@[simp] theorem safe_ok {α : Type} (a : α) : Safe (.ok a : Except Crash α) := ⟨a, rfl⟩

@[simp] theorem safe_pure {α : Type} (a : α) : Safe (pure a : Except Crash α) := ⟨a, rfl⟩

@[simp] theorem not_safe_error {α : Type} (e : Crash) : ¬ Safe (.error e : Except Crash α) := by
  rintro ⟨a, h⟩
  cases h

/-- A first part that ends leaves the question to the second. -/
theorem safe_bind_of_eq {α β : Type} {x : Except Crash α} {f : α → Except Crash β} {a : α}
    (h : x = .ok a) : Safe (x >>= f) ↔ Safe (f a) := by rw [h]; rfl

theorem not_safe_bind {α β : Type} {x : Except Crash α} {f : α → Except Crash β} (h : ¬ Safe x) :
    ¬ Safe (x >>= f) := by
  cases x with
  | ok a => exact absurd (safe_ok a) h
  | error e => exact not_safe_error e

/-- Both parts end. -/
theorem Safe.bind {α β : Type} {x : Except Crash α} {f : α → Except Crash β} (h : Safe x)
    (hf : ∀ a, x = .ok a → Safe (f a)) : Safe (x >>= f) := by
  obtain ⟨a, ha⟩ := h
  exact (safe_bind_of_eq ha).2 (hf a ha)

/-- `PKTBUF_SIZE`. -/
def pktbufSize : ℕ := 1536

/-- `PKTBUF_MAX_HDR`. -/
def pktbufMaxHdr : ℕ := 64

/-- `pktbuf_t`.  `data` is `p->data - p->buffer`, and `cksumTcpGood` the flag of that name. -/
structure Pktbuf where
  buffer : ℕ → UInt8
  blen : ℕ
  data : ℕ
  dlen : ℕ
  cksumTcpGood : Bool
  fits : data + dlen ≤ blen
  blen_lt : blen < 2 ^ 32

namespace Pktbuf

/-- A read of `n` bytes from a pointer into the buffer. -/
def read (p : Pktbuf) (pos n : ℕ) : Except Crash (List UInt8) :=
  if pos + n ≤ p.blen then .ok (window p.buffer pos n) else .error .outside

/-- A store through a pointer into the buffer. -/
def put (p : Pktbuf) (pos : ℕ) (l : List UInt8) : Pktbuf :=
  { p with buffer := store p.buffer pos l }

/-- The bytes of the packet. -/
def bytes (p : Pktbuf) : List UInt8 := window p.buffer p.data p.dlen

/-- The packet without its first `n` bytes. -/
def advance (p : Pktbuf) (n : ℕ) (h : n ≤ p.dlen) : Pktbuf :=
  { p with
    data := p.data + n
    dlen := p.dlen - n
    fits := by
      have := p.fits
      omega }

/-- `pktbuf_consume`: a pointer to the bytes taken, or `NULL`. -/
def consume (p : Pktbuf) (sz : ℕ) : Option (ℕ × Pktbuf) :=
  if h : sz ≤ p.dlen then some (p.data, p.advance sz h) else none

/-- `pktbuf_consume_tail`. -/
def consumeTail (p : Pktbuf) (sz : ℕ) : Pktbuf :=
  { p with
    dlen := p.dlen - sz
    fits := by
      have := p.fits
      omega }

/-- `pktbuf_avail_tail`. -/
def availTail (p : Pktbuf) : ℕ := p.blen - p.data - p.dlen

/-- `pktbuf_prepend`. -/
def prepend (p : Pktbuf) (sz : ℕ) : Except Crash Pktbuf :=
  if h : sz ≤ p.data then
    .ok { p with
      data := p.data - sz
      dlen := p.dlen + sz
      fits := by
        have := p.fits
        omega }
  else .error .panic

/-- `pktbuf_append`. -/
def append (p : Pktbuf) (sz : ℕ) : Except Crash Pktbuf :=
  if h : sz ≤ p.availTail then
    .ok { p with
      dlen := p.dlen + sz
      fits := by
        have := p.fits
        have : sz ≤ p.blen - p.data - p.dlen := h
        omega }
  else .error .panic

/-- The packet buffer of `pktbuf_alloc`, in pool memory with the bytes `mem`. -/
def alloc (mem : ℕ → UInt8) : Pktbuf := ⟨mem, pktbufSize, pktbufMaxHdr, 0, false, by decide, by decide⟩

/-! ### The operations -/

variable {p : Pktbuf} {n sz pos : ℕ}

theorem read_of_le (h : pos + n ≤ p.blen) : p.read pos n = .ok (window p.buffer pos n) :=
  if_pos h

theorem safe_read_iff : Safe (p.read pos n) ↔ pos + n ≤ p.blen := by
  unfold read
  split_ifs with h
  · exact iff_of_true (safe_ok _) h
  · exact iff_of_false (not_safe_error _) h

@[simp] theorem advance_data (h : n ≤ p.dlen) : (p.advance n h).data = p.data + n := rfl

@[simp] theorem advance_dlen (h : n ≤ p.dlen) : (p.advance n h).dlen = p.dlen - n := rfl

@[simp] theorem advance_buffer (h : n ≤ p.dlen) : (p.advance n h).buffer = p.buffer := rfl

@[simp] theorem advance_blen (h : n ≤ p.dlen) : (p.advance n h).blen = p.blen := rfl

@[simp] theorem alloc_data (mem : ℕ → UInt8) : (alloc mem).data = 64 := rfl

@[simp] theorem alloc_dlen (mem : ℕ → UInt8) : (alloc mem).dlen = 0 := rfl

@[simp] theorem alloc_blen (mem : ℕ → UInt8) : (alloc mem).blen = 1536 := rfl

theorem consume_of_le (h : sz ≤ p.dlen) : p.consume sz = some (p.data, p.advance sz h) :=
  dif_pos h

theorem consume_of_lt (h : p.dlen < sz) : p.consume sz = none := dif_neg (by omega)

/-- The data of the packet can be read. -/
theorem read_data (h : n ≤ p.dlen) : p.read p.data n = .ok (window p.buffer p.data n) :=
  read_of_le (by have := p.fits; omega)

/-- Room in front of the data is all that `pktbuf_prepend` needs. -/
theorem prepend_of_le (h : sz ≤ p.data) : ∃ q, p.prepend sz = .ok q ∧ q.data = p.data - sz ∧
    q.dlen = p.dlen + sz ∧ q.blen = p.blen := ⟨_, dif_pos h, rfl, rfl, rfl⟩

/-- `pktbuf_append` panics exactly when there is no room behind the data. -/
theorem safe_append_iff : Safe (p.append sz) ↔ p.data + p.dlen + sz ≤ p.blen := by
  have hfits := p.fits
  unfold append availTail
  by_cases h : sz ≤ p.blen - p.data - p.dlen
  · rw [dif_pos h]
    exact iff_of_true (safe_ok _) (by omega)
  · rw [dif_neg h]
    exact iff_of_false (not_safe_error _) (by omega)

end Pktbuf

end Minip
end LittleKernel
