/-
# Copying out of scattered buffers

`lib/iovec/iovec.c`: `iovec_to_membuf`.

A buffer is the list of its bytes, the destination a function from offsets to bytes.  Positions
and lengths of the destination are `uint`s, so they are computed modulo `2 ^ 32`; the length of a
buffer is a `size_t`, and only compared with them.  A `memcpy` reads inside its buffer: a buffer
that ends before the position is skipped, and no more is taken than lies behind it.
-/

import LittleKernel.Lib.Memory
import LittleKernel.Lib.Word

namespace LittleKernel
namespace Iovec

open Memory Word

/-- `ERR_INVALID_ARGS`. -/
def errInvalidArgs : ℤ := -8

/-- The loop of `iovec_to_membuf`: the destination, and `buf_pos`. -/
def copyLoop : List (List UInt8) → ℕ → ℕ → ℕ → (ℕ → UInt8) → (ℕ → UInt8) × ℕ
  | [], _, bufPos, _, buf => (buf, bufPos)
  | v :: iov, iovPos, bufPos, bufLen, buf =>
    if v.length ≤ iovPos then copyLoop iov (sub32 iovPos v.length) bufPos bufLen buf
    else
      let toCopy := min (v.length - iovPos) bufLen
      let buf := store buf bufPos ((v.drop iovPos).take toCopy)
      let bufPos := u32 (bufPos + toCopy)
      let bufLen := sub32 bufLen toCopy
      if bufLen = 0 then (buf, bufPos) else copyLoop iov 0 bufPos bufLen buf

/-- `iovec_to_membuf`, `none` for `NULL`. -/
def iovecToMembuf (buf : Option (ℕ → UInt8)) (bufLen : UInt32) (iov : Option (List (List UInt8)))
    (iovPos : UInt32) : Option (ℕ → UInt8) × ℤ :=
  match buf, iov with
  | some buf, some iov =>
    let r := copyLoop iov iovPos.toNat 0 bufLen.toNat buf
    (some r.1, r.2)
  | _, _ => (buf, errInvalidArgs)

/-- Successive calls, each into a destination of its own length, from where the one before it
stopped: the bytes they return. -/
def pieces (iov : List (List UInt8)) : ℕ → List ((ℕ → UInt8) × UInt32) → List UInt8
  | _, [] => []
  | iovPos, (buf, bufLen) :: calls =>
    let r := copyLoop iov iovPos 0 bufLen.toNat buf
    window r.1 0 r.2 ++ pieces iov (u32 (iovPos + r.2)) calls

/-- The bytes of the concatenation from a position on, as far as there is room. -/
def part (iov : List (List UInt8)) (iovPos bufLen : ℕ) : List UInt8 :=
  (iov.flatten.drop iovPos).take bufLen

/-- **One round after the other** the loop copies what is left of the buffers from the position
on, as far as there is room. -/
theorem copyLoop_eq (iov : List (List UInt8)) (iovPos bufPos bufLen : ℕ) (buf : ℕ → UInt8)
    (hpos : iovPos < 2 ^ 32) (hlen : bufPos + bufLen < 2 ^ 32) :
    copyLoop iov iovPos bufPos bufLen buf =
      (store buf bufPos (part iov iovPos bufLen), bufPos + (part iov iovPos bufLen).length) := by
  simp only [part]
  induction iov generalizing iovPos bufPos bufLen buf with
  | nil => simp [copyLoop]
  | cons v iov ih =>
    rw [copyLoop, List.flatten_cons]
    split_ifs with hskip
    · -- the whole buffer lies in front of the position
      rw [sub32_of_le hpos hskip, ih _ _ _ _ (by omega) hlen,
        List.drop_append, List.drop_eq_nil_of_le hskip, List.nil_append]
    · have hv : v.length - iovPos = (v.drop iovPos).length := by rw [List.length_drop]
      rw [List.drop_append_of_le_length (by omega), hv]
      generalize v.drop iovPos = w at *
      simp only
      rcases Nat.lt_or_ge w.length bufLen with hroom | hfull
      · -- the buffer ends in front of the end of the destination
        rw [Nat.min_eq_left hroom.le, List.take_of_length_le (Nat.le_refl _),
          u32_of_lt (by omega), sub32_of_le (by omega) hroom.le, if_neg (by omega),
          ih _ _ _ _ (by omega) (by omega), store_append, List.drop_zero,
          List.take_append, List.take_of_length_le hroom.le, List.length_append, Nat.add_assoc]
      · rw [Nat.min_eq_right hfull, u32_of_lt (by omega), sub32_of_le (by omega) (Nat.le_refl _),
          if_pos (Nat.sub_self _), List.take_append_of_le_length hfull, List.length_take,
          Nat.min_eq_left hfull]

/-- The bytes that successive calls return are the concatenation from the first position on. -/
theorem pieces_eq {iov : List (List UInt8)} (htotal : iov.flatten.length < 2 ^ 32)
    (calls : List ((ℕ → UInt8) × UInt32)) (iovPos : ℕ) (hpos : iovPos < 2 ^ 32) :
    pieces iov iovPos calls = part iov iovPos (calls.map fun c => c.2.toNat).sum := by
  induction calls generalizing iovPos with
  | nil => simp [pieces, part]
  | cons c calls ih =>
    obtain ⟨buf, bufLen⟩ := c
    have hlen := bufLen.toNat_lt
    rw [pieces, copyLoop_eq iov iovPos 0 bufLen.toNat buf hpos (by omega)]
    simp only [part, Nat.zero_add, List.map_cons, List.sum_cons] at ih ⊢
    have hread := window_store buf 0 [] ((iov.flatten.drop iovPos).take bufLen.toNat) []
    have hend : iovPos + ((iov.flatten.drop iovPos).take bufLen.toNat).length < 2 ^ 32 := by
      rw [List.length_take, List.length_drop]
      omega
    simp only [List.nil_append, List.append_nil, List.length_nil, Nat.add_zero] at hread
    rw [hread, u32_of_lt hend, ih _ hend, List.length_take, List.length_drop, List.take_add,
      List.drop_drop]
    congr 1
    rcases Nat.le_total bufLen.toNat (iov.flatten.length - iovPos) with hle | hge
    · rw [Nat.min_eq_left hle]
    · -- nothing is left, wherever the next call starts
      rw [Nat.min_eq_right hge, List.drop_eq_nil_of_le (by omega),
        List.drop_eq_nil_of_le (by omega)]

/-- **Scatter-gather copy**: a call copies exactly the bytes of the concatenation from the
position on, cut to the room there is, leaves the rest of the destination as it was and returns
how many they are; and the pieces that successive calls return, whatever room each of them has,
are the concatenation's without loss or overlap. -/
theorem iovec_to_membuf_exact (iov : List (List UInt8)) (htotal : iov.flatten.length < 2 ^ 32) :
    (∀ (buf : ℕ → UInt8) (bufLen iovPos : UInt32),
      iovecToMembuf (some buf) bufLen (some iov) iovPos =
        (some (store buf 0 (part iov iovPos.toNat bufLen.toNat)),
          ((part iov iovPos.toNat bufLen.toNat).length : ℤ))) ∧
      ∀ (calls : List ((ℕ → UInt8) × UInt32)) (iovPos : UInt32), pieces iov iovPos.toNat calls =
          part iov iovPos.toNat (calls.map fun c => c.2.toNat).sum := by
  constructor
  · intro buf bufLen iovPos
    have hlen := bufLen.toNat_lt
    simp only [iovecToMembuf, copyLoop_eq iov iovPos.toNat 0 bufLen.toNat buf iovPos.toNat_lt
      (by omega), Nat.zero_add]
  · exact fun calls iovPos => pieces_eq htotal calls iovPos.toNat iovPos.toNat_lt

/-- Two bytes, an empty buffer and one byte more. -/
theorem iovec_to_membuf_exact_three :
    (∀ (buf : ℕ → UInt8) (bufLen iovPos : UInt32),
      iovecToMembuf (some buf) bufLen (some [[1, 2], [], [3]]) iovPos =
        (some (store buf 0 (part [[1, 2], [], [3]] iovPos.toNat bufLen.toNat)),
          ((part [[1, 2], [], [3]] iovPos.toNat bufLen.toNat).length : ℤ))) ∧
      ∀ (calls : List ((ℕ → UInt8) × UInt32)) (iovPos : UInt32),
        pieces [[1, 2], [], [3]] iovPos.toNat calls =
          part [[1, 2], [], [3]] iovPos.toNat (calls.map fun c => c.2.toNat).sum :=
  iovec_to_membuf_exact [[1, 2], [], [3]] (by decide)

end Iovec
end LittleKernel
