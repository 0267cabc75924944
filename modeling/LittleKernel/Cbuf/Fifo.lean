/-
# The circular buffer is a byte queue

The abstract object is a `List UInt8` of length at most `2 ^ len_pow2 - 1`
(`fifoStep`), the abstraction `contents`: the bytes met by walking the ring
from `tail`.  `Wf` is the invariant of `cbuf_t` while its lock is free: the
positions lie in the buffer, and the event is signalled exactly when they
differ.

The bulk paths are loops of at most two contiguous copies.  `writeLen_spec` and
`readLen_spec` say what one pass may touch, and the two `_spec` lemmas of the
loops follow by induction on the bytes still to move, whatever the positions
are.  `cbuf_refines_fifo` is the whole development over any sequence of calls.
-/

import LittleKernel.Cbuf.Basic
import LittleKernel.Lib.Machine

namespace LittleKernel
namespace Cbuf

open Word

/-! ### The abstract queue -/

/-- The calls of `lib/cbuf.h` that touch the buffer. -/
inductive Op where
  | write (src : Option (ℕ → UInt8)) (len : ℕ)
  | writeChar (ch : UInt8)
  | read (dst : Option (ℕ → UInt8)) (buflen : ℕ) (block : Bool)
  | readChar (block : Bool)
  | peek
  | reset

/-- What a call hands back: a count, the destination buffer it filled, the
character it read, the bytes its regions describe. -/
inductive Out where
  | wrote (n : ℕ)
  | read (dst : Option (ℕ → UInt8)) (n : ℕ)
  | char (ch : Option UInt8)
  | peeked (bytes : List UInt8) (n : ℕ)
  | reset

/-- One call on the buffer. -/
def step (lvl : ℕ) (c : CbufT) : Op → Option (CbufT × Out)
  | .write src len => (cbufWrite lvl c src len).map fun r => (r.1, .wrote r.2)
  | .writeChar ch => some ((cbufWriteChar c ch).1, .wrote (cbufWriteChar c ch).2)
  | .read dst buflen block =>
    (cbufRead lvl c dst buflen block).map fun r => (r.1, .read r.2.1 r.2.2)
  | .readChar block => (cbufReadChar c block).map fun r => (r.1, .char r.2)
  | .peek => (cbufPeek lvl c).map fun r =>
    (c, .peeked (r.1.bytes c.buf ++ r.2.1.bytes c.buf) r.2.2)
  | .reset => (cbufReset lvl c).map fun c' => (c', .reset)

/-- One call on a byte queue of capacity `cap`. -/
def fifoStep (cap : ℕ) (q : List UInt8) : Op → Option (List UInt8 × Out)
  | .write src len =>
    let n := min len (cap - q.length)
    some (q ++ Memory.window (source src) 0 n, .wrote n)
  | .writeChar ch => if q.length < cap then some (q ++ [ch], .wrote 1) else some (q, .wrote 0)
  | .read dst buflen block =>
    let n := min buflen q.length
    if block ∧ n = 0 then none
    else some (q.drop n, .read (dst.map fun d => Memory.store d 0 (q.take n)) n)
  | .readChar block =>
    match q with
    | [] => if block then none else some ([], .char none)
    | b :: q => some (q, .char (some b))
  | .peek => some (q, .peeked q q.length)
  | .reset => some ([], .reset)

/-- The bytes waiting to be read, oldest first. -/
def contents (c : CbufT) : List UInt8 :=
  Memory.ring c.buf (2 ^ c.lenPow2) c.tail (cbufSpaceUsed c)

/-! ### Positions -/

/-- The positions lie in the buffer, whose length is a `uint`. -/
structure Bounded (c : CbufT) : Prop where
  len_le : c.lenPow2 ≤ 31
  head_lt : c.head < 2 ^ c.lenPow2
  tail_lt : c.tail < 2 ^ c.lenPow2

/-- The invariant of a buffer whose lock is free. -/
structure Wf (c : CbufT) : Prop extends Bounded c where
  event_iff : c.event = true ↔ c.head ≠ c.tail

variable {c : CbufT}

section

variable (h : Bounded c)
include h

theorem Bounded.size_lt : 2 ^ c.lenPow2 < 2 ^ 32 := two_pow_lt_of_le h.len_le

/-- `cbuf_space_used` is the distance from `tail` to `head` around the ring. -/
theorem Bounded.used_eq : cbufSpaceUsed c =
    if c.tail ≤ c.head then c.head - c.tail else c.head + 2 ^ c.lenPow2 - c.tail := by
  rw [cbufSpaceUsed, modpow2_eq (sub32_lt _ _),
    sub32_mod_two_pow (by have := h.len_le; omega) h.head_lt h.tail_lt]

theorem Bounded.used_lt : cbufSpaceUsed c < 2 ^ c.lenPow2 := by
  have := h.used_eq; have := h.head_lt; have := h.tail_lt
  split_ifs at * <;> omega

/-- One slot stays unused. -/
theorem Bounded.avail_eq :
    cbufSpaceAvail c = 2 ^ c.lenPow2 - 1 - cbufSpaceUsed c := by
  have hu := h.used_lt
  rw [cbufSpaceAvail, ← cbufSpaceUsed, valpow2_eq h.len_le, sub32_of_le h.size_lt hu.le,
    sub32_of_le (by have := h.size_lt; omega) (by omega)]
  omega

/-- `head` is `used` cells after `tail`. -/
theorem Bounded.head_eq :
    c.head = (c.tail + cbufSpaceUsed c) % 2 ^ c.lenPow2 := by
  have hu := h.used_lt; have ht := h.tail_lt; have hh := h.head_lt
  have he := h.used_eq
  rw [Memory.mod_of_lt_two_mul (by omega)]
  split_ifs at * <;> omega

theorem Bounded.used_eq_zero_iff : cbufSpaceUsed c = 0 ↔ c.head = c.tail := by
  have := h.used_eq; have := h.head_lt; have := h.tail_lt
  split_ifs at * <;> omega

theorem Bounded.incPointer_eq {ptr inc : ℕ} (hi : ptr + inc ≤ 2 ^ c.lenPow2) :
    incPointer c ptr inc = (ptr + inc) % 2 ^ c.lenPow2 :=
  modpow2_eq (by have := h.size_lt; omega)

end

@[simp] theorem length_contents (c : CbufT) : (contents c).length = cbufSpaceUsed c := by
  simp [contents]

theorem Bounded.contents_eq_nil_iff (h : Bounded c) : contents c = [] ↔ c.head = c.tail := by
  rw [← h.used_eq_zero_iff, ← length_contents, List.length_eq_zero_iff]

/-! ### Writing -/

/-- What one pass of `cbuf_write` may write: something, no more than asked for,
no more than is free, and nothing past the end of the buffer. -/
theorem writeLen_spec (h : Bounded c) (rest : ℕ) (hr : 0 < rest) (ha : 0 < cbufSpaceAvail c) :
    0 < writeLen c rest ∧ writeLen c rest ≤ rest ∧ writeLen c rest ≤ cbufSpaceAvail c ∧
      c.head + writeLen c rest ≤ 2 ^ c.lenPow2 := by
  have hh := h.head_lt; have ht := h.tail_lt; have hs := h.size_lt
  have hu := h.used_eq
  rw [h.avail_eq] at ha ⊢
  have h₁ : sub32 (2 ^ c.lenPow2) c.head = 2 ^ c.lenPow2 - c.head := sub32_of_le hs hh.le
  have h₂ : sub32 (2 ^ c.lenPow2 - c.head) 1 = 2 ^ c.lenPow2 - c.head - 1 :=
    sub32_of_le (by omega) (by omega)
  unfold writeLen
  rw [valpow2_eq h.len_le, h₁, h₂]
  split_ifs at hu ⊢ with h₃ h₄
  · omega
  · omega
  · have h₄ : sub32 c.tail c.head = c.tail - c.head := sub32_of_le (by omega) (by omega)
    rw [h₄, sub32_of_le (by omega) (by omega)]
    omega

/-- **One pass appends its bytes.** -/
theorem writePass_spec (h : Bounded c) (src : Option (ℕ → UInt8)) (pos : ℕ) {w : ℕ}
    (ha : w ≤ cbufSpaceAvail c) (hw : c.head + w ≤ 2 ^ c.lenPow2) :
    Bounded (writePass c src pos w) ∧ cbufSpaceUsed (writePass c src pos w) = cbufSpaceUsed c + w ∧
      contents (writePass c src pos w) = contents c ++ Memory.window (source src) pos w := by
  have hu := h.used_lt
  have hpos : 0 < 2 ^ c.lenPow2 := Nat.two_pow_pos _
  rw [h.avail_eq] at ha
  have hhead : (writePass c src pos w).head = (c.head + w) % 2 ^ c.lenPow2 := h.incPointer_eq hw
  have hb : Bounded (writePass c src pos w) :=
    ⟨h.len_le, hhead ▸ Nat.mod_lt _ hpos, h.tail_lt⟩
  have hused : cbufSpaceUsed (writePass c src pos w) = cbufSpaceUsed c + w := by
    have hold := h.used_eq; have hnew := hb.used_eq
    have ht := h.tail_lt; have hh := h.head_lt
    rw [hhead, Memory.mod_of_lt_two_mul (by omega)] at hnew
    simp only [writePass] at hnew ⊢
    split_ifs at hold hnew <;> omega
  refine ⟨hb, hused, ?_⟩
  have hring := Memory.ring_copy c.buf (source src) pos h.tail_lt
    (show cbufSpaceUsed c + w ≤ 2 ^ c.lenPow2 by omega) (by rw [← h.head_eq]; exact hw)
  rw [← h.head_eq] at hring
  rw [contents, hused]
  exact hring

/-- **The loop of `cbuf_write`.**  From any position it appends the leading
bytes that fit, and moves neither `tail` nor the event. -/
theorem cbufWriteLoop_spec (src : Option (ℕ → UInt8)) (len : ℕ) :
    ∀ (c : CbufT) (pos : ℕ), Bounded c → pos ≤ len →
      let n := min (len - pos) (cbufSpaceAvail c)
      let r := cbufWriteLoop c src len pos
      Bounded r.1 ∧ r.2 = pos + n ∧ contents r.1 = contents c ++ Memory.window (source src) pos n ∧
        r.1.tail = c.tail ∧ r.1.lenPow2 = c.lenPow2 ∧ r.1.event = c.event := by
  intro c pos
  -- the recursion of the loop: the bytes still to write
  fun_induction cbufWriteLoop c src len pos with
  | case1 c pos hgo hz =>
    intro h hp
    exact absurd hz (writeLen_spec h _ (by omega) hgo.2).1.ne'
  | case2 c pos hgo hz ih =>
    intro h hp
    obtain ⟨hw₀, hwr, hwa, hwe⟩ := writeLen_spec h (len - pos) (by omega) hgo.2
    obtain ⟨hb, hused, hcont⟩ := writePass_spec h src pos hwa hwe
    obtain ⟨ih₁, ih₂, ih₃, ih₄, ih₅, ih₆⟩ := ih hb (by omega)
    have hlen : (writePass c src pos (writeLen c (len - pos))).lenPow2 = c.lenPow2 := rfl
    have hav : cbufSpaceAvail (writePass c src pos (writeLen c (len - pos)))
        = cbufSpaceAvail c - writeLen c (len - pos) := by
      rw [hb.avail_eq, h.avail_eq, hused, hlen]; omega
    have hn : min (len - pos) (cbufSpaceAvail c) = writeLen c (len - pos) +
        min (len - (pos + writeLen c (len - pos)))
          (cbufSpaceAvail (writePass c src pos (writeLen c (len - pos)))) := by
      rw [hav]; omega
    refine ⟨ih₁, ?_, ?_, ih₄, ih₅, ih₆⟩
    · rw [ih₂, hn]; omega
    · rw [ih₃, hcont, hn, Memory.window_add, List.append_assoc]
  | case3 c pos hgo =>
    intro h hp
    have hn : min (len - pos) (cbufSpaceAvail c) = 0 := by omega
    rw [hn]
    exact ⟨h, rfl, by simp, rfl, rfl, rfl⟩

/-! ### Reading -/

/-- What one pass of `cbuf_read` may read: something, no more than asked for,
no more than there is, and nothing past the end of the buffer. -/
theorem readLen_spec (h : Bounded c) (rest : ℕ) (hr : 0 < rest) (hne : c.tail ≠ c.head) :
    0 < readLen c rest ∧ readLen c rest ≤ rest ∧ readLen c rest ≤ cbufSpaceUsed c ∧
      c.tail + readLen c rest ≤ 2 ^ c.lenPow2 := by
  have hh := h.head_lt; have ht := h.tail_lt; have hs := h.size_lt
  have hu := h.used_eq
  unfold readLen
  rw [valpow2_eq h.len_le, sub32_of_le hs ht.le]
  rcases Nat.lt_or_gt_of_ne hne with hlt | hgt
  · rw [if_pos hlt.le] at hu
    rw [if_pos hlt, sub32_of_le (by omega) hlt.le]
    omega
  · rw [if_neg (by omega)] at hu
    rw [if_neg (by omega)]
    omega

/-- **Moving `tail` drops the oldest bytes.** -/
theorem advance_spec (h : Bounded c) {r : ℕ} (hu : r ≤ cbufSpaceUsed c)
    (hw : c.tail + r ≤ 2 ^ c.lenPow2) :
    Bounded { c with tail := incPointer c c.tail r } ∧
      cbufSpaceUsed { c with tail := incPointer c c.tail r } = cbufSpaceUsed c - r ∧
      contents { c with tail := incPointer c c.tail r } = (contents c).drop r := by
  have htail : incPointer c c.tail r = (c.tail + r) % 2 ^ c.lenPow2 := h.incPointer_eq hw
  have hb : Bounded { c with tail := incPointer c c.tail r } :=
    ⟨h.len_le, h.head_lt, htail ▸ Nat.mod_lt _ (Nat.two_pow_pos _)⟩
  have hused : cbufSpaceUsed { c with tail := incPointer c c.tail r } = cbufSpaceUsed c - r := by
    have hold := h.used_eq; have hnew := hb.used_eq
    have ht := h.tail_lt; have hh := h.head_lt
    simp only at hnew
    rw [htail, Memory.mod_of_lt_two_mul (by omega)] at hnew
    rw [htail, Memory.mod_of_lt_two_mul (by omega), hnew]
    split_ifs at hold ⊢ <;> omega
  refine ⟨hb, hused, ?_⟩
  rw [contents, hused]
  simp only [htail]
  exact Memory.ring_advance c.buf _ c.tail _ r hu

/-- **The loop of `cbuf_read`.**  From any position it hands over the oldest
bytes, as many as asked for, and moves neither `head` nor the event. -/
theorem cbufReadLoop_spec (buflen : ℕ) :
    ∀ (c : CbufT) (dst : Option (ℕ → UInt8)) (pos : ℕ), Bounded c → pos ≤ buflen →
      let n := min (buflen - pos) (cbufSpaceUsed c)
      let r := cbufReadLoop c dst buflen pos
      Bounded r.1 ∧ contents r.1 = (contents c).drop n ∧
        r.2 = (dst.map fun d => Memory.store d pos ((contents c).take n), pos + n) ∧
        r.1.head = c.head ∧ r.1.lenPow2 = c.lenPow2 ∧ r.1.event = c.event := by
  intro c dst pos
  fun_induction cbufReadLoop c dst buflen pos with
  | case1 c dst pos hgo ih =>
    intro h hp
    obtain ⟨hr₀, hrr, hru, hre⟩ := readLen_spec h (buflen - pos) (by omega) hgo.2.1
    obtain ⟨hb, hused, hcont⟩ := advance_spec h hru hre
    obtain ⟨ih₁, ih₂, ih₃, ih₄, ih₅, ih₆⟩ := ih hb (by omega)
    generalize readLen c (buflen - pos) = r at *
    obtain ⟨m, hm⟩ : ∃ m, m = min (buflen - (pos + r)) (cbufSpaceUsed c - r) := ⟨_, rfl⟩
    have hn : min (buflen - pos) (cbufSpaceUsed c) = r + m := by omega
    rw [hused, ← hm, hcont] at ih₂ ih₃
    refine ⟨ih₁, ?_, ?_, ih₄, ih₅, ih₆⟩
    · rw [ih₂, hn, List.drop_drop]
    · have hwin : Memory.window c.buf c.tail r = (contents c).take r :=
        Memory.window_eq_take_ring c.buf hru hre
      have hlen : ((contents c).take r).length = r := by simp [hru]
      have hone : ∀ d : ℕ → UInt8,
          Memory.store (Memory.copy d pos c.buf c.tail r) (pos + r)
            (((contents c).drop r).take m)
            = Memory.store d pos ((contents c).take (r + m)) := by
        intro d
        rw [Memory.copy_eq_store, hwin]
        conv_lhs => rw [show pos + r = pos + ((contents c).take r).length by rw [hlen]]
        rw [Memory.store_append, List.take_add]
      rw [ih₃, hn, readCopy, Option.map_map, Nat.add_assoc]
      simp only [Function.comp_def, hone]
  | case2 c dst pos hgo =>
    intro h hp
    have hn : min (buflen - pos) (cbufSpaceUsed c) = 0 := by
      by_contra hne
      have hu : c.tail ≠ c.head := fun he => by
        have := h.used_eq_zero_iff.2 he.symm; omega
      exact hgo ⟨by omega, hu, (readLen_spec h _ (by omega) hu).1⟩
    rw [hn]
    exact ⟨h, by simp, by simp, rfl, rfl, rfl⟩

/-! ### The calls -/

/-- **`cbuf_write`.** -/
theorem cbufWrite_spec (h : Wf c) {lvl len : ℕ} (src : Option (ℕ → UInt8))
    (hlen : DebugAssert lvl (len < 2 ^ c.lenPow2)) :
    ∃ c', cbufWrite lvl c src len = some (c', min len (cbufSpaceAvail c)) ∧ Wf c' ∧
      c'.lenPow2 = c.lenPow2 ∧ contents c' = contents c ++
        Memory.window (source src) 0 (min len (cbufSpaceAvail c)) := by
  obtain ⟨hb, hret, hcont, htail, hpow, hev⟩ :=
    cbufWriteLoop_spec src len c 0 h.toBounded (Nat.zero_le _)
  simp only [Nat.sub_zero, Nat.zero_add] at hret hcont
  rw [cbufWrite, valpow2_eq h.len_le, if_pos hlen]
  simp only [hret]
  refine ⟨_, rfl, ⟨⟨hb.len_le, hb.head_lt, hb.tail_lt⟩, ?_⟩, hpow, hcont⟩
  simp only
  split_ifs with hne
  · simp [hne]
  · -- nothing was written to an empty buffer, whose event was not signalled
    have h0 : contents (cbufWriteLoop c src len 0).1 = [] :=
      hb.contents_eq_nil_iff.2 (not_not.1 hne)
    rw [hcont, List.append_eq_nil_iff, h.contents_eq_nil_iff] at h0
    have := h.event_iff
    simp_all

/-- **`cbuf_write_char`** is `cbuf_write` of one byte. -/
theorem cbufWriteChar_spec (h : Wf c) (ch : UInt8) :
    Wf (cbufWriteChar c ch).1 ∧ (cbufWriteChar c ch).1.lenPow2 = c.lenPow2 ∧ (0 < cbufSpaceAvail c →
        (cbufWriteChar c ch).2 = 1 ∧ contents (cbufWriteChar c ch).1 = contents c ++ [ch]) ∧
      (cbufSpaceAvail c = 0 → cbufWriteChar c ch = (c, 0)) := by
  by_cases ha : 0 < cbufSpaceAvail c
  · have hh := h.head_lt
    obtain ⟨hb, hused, hcont⟩ := writePass_spec h.toBounded (some fun _ => ch) 0
      (show 1 ≤ cbufSpaceAvail c from ha) (by omega)
    have hne : incPointer c c.head 1 ≠ c.tail := fun he => by
      have := hb.used_eq_zero_iff.2 he; omega
    rw [cbufWriteChar, if_pos ha]
    refine ⟨⟨⟨hb.len_le, hb.head_lt, hb.tail_lt⟩, ?_⟩, rfl, fun _ => ⟨rfl, hcont⟩, by omega⟩
    simp [hne]
  · rw [cbufWriteChar, if_neg ha]
    exact ⟨h, rfl, fun h0 => absurd h0 ha, fun _ => rfl⟩

/-- **The critical section of `cbuf_read`**, with or without a destination. -/
theorem cbufReadLocked_spec (h : Wf c) (lvl : ℕ) (dst : Option (ℕ → UInt8)) (buflen : ℕ) :
    ∃ c', cbufReadLocked lvl c dst buflen = some (c',
        dst.map fun d => Memory.store d 0 ((contents c).take (min buflen (cbufSpaceUsed c))),
        min buflen (cbufSpaceUsed c)) ∧ Wf c' ∧ c'.lenPow2 = c.lenPow2 ∧
      contents c' = (contents c).drop (min buflen (cbufSpaceUsed c)) := by
  unfold cbufReadLocked
  by_cases hne : c.tail = c.head
  · have hu := h.used_eq_zero_iff.2 hne.symm
    rw [if_neg (not_not.2 hne), hu, Nat.min_zero]
    exact ⟨c, by simp, h, rfl, by simp⟩
  · obtain ⟨hb, hcont, hret, hhead, hpow, hev⟩ :=
      cbufReadLoop_spec buflen c dst 0 h.toBounded (Nat.zero_le _)
    simp only [Nat.sub_zero, Nat.zero_add] at hret hcont
    rw [if_pos hne]
    simp only [hret]
    by_cases he : (cbufReadLoop c dst buflen 0).1.tail = (cbufReadLoop c dst buflen 0).1.head
    · -- the buffer was emptied, so something was read
      have hpos : 0 < min buflen (cbufSpaceUsed c) := by
        by_contra h0
        have hz : min buflen (cbufSpaceUsed c) = 0 := by omega
        rw [hz, List.drop_zero, (hb.contents_eq_nil_iff).2 he.symm] at hcont
        exact hne (h.contents_eq_nil_iff.1 hcont.symm).symm
      rw [if_pos he, if_pos (DebugAssert.of hpos)]
      exact ⟨_, rfl, ⟨⟨hb.len_le, hb.head_lt, hb.tail_lt⟩, by simp [he]⟩, hpow, hcont⟩
    · rw [if_neg he]
      refine ⟨(cbufReadLoop c dst buflen 0).1, by rw [← hret], ⟨hb, ?_⟩, hpow, hcont⟩
      rw [hev, h.event_iff]
      exact ⟨fun _ => Ne.symm he, fun _ => Ne.symm hne⟩

/-- **The critical section of `cbuf_read_char`.** -/
theorem cbufReadCharLocked_spec (h : Wf c) :
    Wf (cbufReadCharLocked c).1 ∧ (cbufReadCharLocked c).1.lenPow2 = c.lenPow2 ∧
      contents (cbufReadCharLocked c).1 = (contents c).tail ∧
      (cbufReadCharLocked c).2 = (contents c).head? := by
  unfold cbufReadCharLocked
  by_cases hne : c.tail = c.head
  · have hnil := h.contents_eq_nil_iff.2 hne.symm
    rw [if_neg (not_not.2 hne)]
    exact ⟨h, rfl, by simp [hnil], by simp [hnil]⟩
  · have hu : 1 ≤ cbufSpaceUsed c :=
      Nat.one_le_iff_ne_zero.2 fun h0 => hne (h.used_eq_zero_iff.1 h0).symm
    have ht := h.tail_lt
    obtain ⟨hb, hused, hcont⟩ := advance_spec h.toBounded hu (by omega)
    rw [if_pos hne]
    refine ⟨⟨⟨hb.len_le, hb.head_lt, hb.tail_lt⟩, ?_⟩, rfl, ?_, ?_⟩
    · have := h.event_iff
      by_cases he : incPointer c c.tail 1 = c.head
      · simp [he]
      · simp [he, this, Ne.symm he, Ne.symm hne]
    · rw [← List.drop_one]; exact hcont
    · have hwin : Memory.window c.buf c.tail 1 = (contents c).take 1 :=
        Memory.window_eq_take_ring c.buf hu (show c.tail + 1 ≤ 2 ^ c.lenPow2 by omega)
      cases hq : contents c with
      | nil => simp [hq, Memory.window] at hwin
      | cons b q => simpa [hq, Memory.window] using hwin

/-- **`cbuf_peek`**: the two regions are the whole contents, in order. -/
theorem cbufPeek_spec (h : Bounded c) (lvl : ℕ) : ∃ r, cbufPeek lvl c = some r ∧
    r.1.bytes c.buf ++ r.2.1.bytes c.buf = contents c ∧ r.2.2 = cbufSpaceUsed c := by
  have hu := h.used_lt; have ht := h.tail_lt
  have hsz : cbufSize c = 2 ^ c.lenPow2 := rfl
  have hassert : DebugAssert lvl (c.tail < cbufSize c) ∧
      DebugAssert lvl (cbufSpaceUsed c ≤ cbufSize c) := ⟨.of ht, .of hu.le⟩
  simp only [cbufPeek, if_pos hassert]
  by_cases hwrap : cbufSize c < cbufSpaceUsed c + c.tail
  · have hne : cbufSpaceUsed c ≠ 0 := by omega
    have hle : 2 ^ c.lenPow2 - c.tail ≤ cbufSpaceUsed c := by omega
    have h₁ := Memory.window_eq_take_ring c.buf hle
      (show c.tail + (2 ^ c.lenPow2 - c.tail) ≤ 2 ^ c.lenPow2 by omega)
    have h₂ := Memory.ring_advance c.buf (2 ^ c.lenPow2) c.tail _ _ hle
    rw [show c.tail + (2 ^ c.lenPow2 - c.tail) = 2 ^ c.lenPow2 by omega, Nat.mod_self] at h₂
    have h₃ := Memory.window_eq_take_ring c.buf
      (Nat.le_refl (cbufSpaceUsed c - (2 ^ c.lenPow2 - c.tail)))
      (show 0 + (cbufSpaceUsed c - (2 ^ c.lenPow2 - c.tail)) ≤ 2 ^ c.lenPow2 by omega)
    rw [List.take_of_length_le (by simp), h₂] at h₃
    rw [if_pos hwrap, if_pos hne]
    refine ⟨_, rfl, ?_, rfl⟩
    simp only [Iovec.bytes, hsz]
    rw [h₁, h₃, List.take_append_drop, contents]
  · have h₁ := Memory.window_eq_take_ring c.buf (Nat.le_refl (cbufSpaceUsed c))
      (show c.tail + cbufSpaceUsed c ≤ 2 ^ c.lenPow2 by omega)
    rw [List.take_of_length_le (by simp)] at h₁
    rw [if_neg hwrap]
    refine ⟨_, rfl, ?_, rfl⟩
    by_cases h0 : cbufSpaceUsed c = 0
    · simp [Iovec.bytes, h0, contents]
    · simpa [Iovec.bytes, h0, contents] using h₁

/-- A call the build does not stop: with the debug assertions compiled in,
`cbuf_write` wants `len` below the size of the buffer. -/
def Op.Allowed (lvl k : ℕ) : Op → Prop
  | .write _ len => DebugAssert lvl (len < 2 ^ k)
  | _ => True

/-- A call on the buffer is the call on the queue, outputs included, and leaves
the invariant. -/
def Refines (lvl k : ℕ) (c : CbufT) (op : Op) : Prop :=
  (step lvl c op).map (Prod.map contents id) = fifoStep (2 ^ k - 1) (contents c) op ∧
    ∀ c' o, step lvl c op = some (c', o) → Wf c' ∧ c'.lenPow2 = k

/-- A call that returns `(c', o)` refines if `c'` abstracts to what the queue
becomes. -/
theorem refines_of_some {lvl k : ℕ} {c : CbufT} {op : Op} (c' : CbufT) {q : List UInt8} (o : Out)
    (hstep : step lvl c op = some (c', o)) (hwf : Wf c') (hk : c'.lenPow2 = k)
    (hq : contents c' = q) (hfifo : fifoStep (2 ^ k - 1) (contents c) op = some (q, o)) :
    Refines lvl k c op := by
  refine ⟨by rw [hstep, hfifo, ← hq]; rfl, fun c'' o' h => ?_⟩
  rw [hstep] at h
  obtain ⟨rfl, -⟩ := Prod.mk.inj (Option.some.inj h)
  exact ⟨hwf, hk⟩

theorem refines_of_none {lvl k : ℕ} {c : CbufT} {op : Op} (hstep : step lvl c op = none)
    (hfifo : fifoStep (2 ^ k - 1) (contents c) op = none) : Refines lvl k c op :=
  ⟨by rw [hstep, hfifo]; rfl, fun _ _ h => by simp [hstep] at h⟩

theorem read_refines (h : Wf c) (lvl : ℕ) (dst : Option (ℕ → UInt8)) (buflen : ℕ) (block : Bool) :
    Refines lvl c.lenPow2 c (.read dst buflen block) := by
  obtain ⟨c', hread, hwf, hk, hcont⟩ := cbufReadLocked_spec h lvl dst buflen
  rw [← length_contents] at hread hcont
  let n := min buflen (contents c).length
  let out := Out.read (dst.map fun d => Memory.store d 0 ((contents c).take n)) n
  cases block with
  | false =>
    refine refines_of_some c' out ?_ hwf hk hcont ?_
    · simp only [step, cbufRead, Bool.false_eq_true, if_false, hread, Option.map_some, out, n]
    · simp only [fifoStep, Bool.false_eq_true, false_and, if_false, out, n]
  | true =>
    by_cases hev : c.event = true
    · by_cases hn : min buflen (contents c).length = 0
      · apply refines_of_none
        · simp only [step, cbufRead, if_true, hev, hread, hn]
          rfl
        · simp only [fifoStep, hn, and_self, if_true]
      · refine refines_of_some c' out ?_ hwf hk hcont ?_
        · simp only [step, cbufRead, if_true, hev, hread]
          rw [Option.filter_some_pos (by simpa using hn), Option.map_some]
        · simp only [fifoStep, hn, and_false, if_false, out, n]
    · have hnil : contents c = [] := by
        rw [h.contents_eq_nil_iff]
        exact not_not.1 fun hne => hev (h.event_iff.2 hne)
      apply refines_of_none
      · simp [step, cbufRead, hev]
      · simp [fifoStep, hnil]

theorem readChar_refines (h : Wf c) (lvl : ℕ) (block : Bool) :
    Refines lvl c.lenPow2 c (.readChar block) := by
  obtain ⟨hwf, hk, hcont, hchar⟩ := cbufReadCharLocked_spec h
  have hev : c.event = true ↔ contents c ≠ [] := by
    rw [h.event_iff, ne_eq, ne_eq, h.contents_eq_nil_iff]
  cases hq : contents c with
  | nil =>
    rw [hq] at hcont hchar
    cases block with
    | false =>
      refine refines_of_some (cbufReadCharLocked c).1 (.char none) ?_ hwf hk hcont ?_
      · simp [step, cbufReadChar, hchar]
      · simp [fifoStep, hq]
    | true =>
      apply refines_of_none
      · simp [step, cbufReadChar, hchar]
      · simp [fifoStep, hq]
  | cons b q =>
    rw [hq] at hcont hchar hev
    refine refines_of_some (cbufReadCharLocked c).1 (.char (some b)) ?_ hwf hk hcont ?_
    · cases block <;> simp [step, cbufReadChar, hchar, hev]
    · simp [fifoStep, hq]

theorem write_refines (h : Wf c) {lvl len : ℕ} (src : Option (ℕ → UInt8))
    (hlen : DebugAssert lvl (len < 2 ^ c.lenPow2)) : Refines lvl c.lenPow2 c (.write src len) := by
  obtain ⟨c', hw, hwf, hk, hcont⟩ := cbufWrite_spec h src hlen
  refine refines_of_some c' (.wrote (min len (cbufSpaceAvail c))) ?_ hwf hk hcont ?_
  · rw [step, hw, Option.map_some]
  · rw [fifoStep, length_contents, ← h.avail_eq]

theorem writeChar_refines (h : Wf c) (lvl : ℕ) (ch : UInt8) :
    Refines lvl c.lenPow2 c (.writeChar ch) := by
  obtain ⟨hwf, hk, hroom, hfull⟩ := cbufWriteChar_spec h ch
  have hcap := h.avail_eq
  rw [← length_contents] at hcap
  rcases Nat.eq_zero_or_pos (cbufSpaceAvail c) with ha | ha
  · refine refines_of_some c (.wrote 0) ?_ h rfl rfl ?_
    · rw [step, hfull ha]
    · rw [fifoStep, if_neg (by omega)]
  · refine refines_of_some (cbufWriteChar c ch).1 (.wrote 1) ?_ hwf hk (hroom ha).2 ?_
    · rw [step, (hroom ha).1]
    · rw [fifoStep, if_pos (by omega)]

theorem peek_refines (h : Wf c) (lvl : ℕ) : Refines lvl c.lenPow2 c .peek := by
  obtain ⟨r, hr, hbytes, hret⟩ := cbufPeek_spec h.toBounded lvl
  refine refines_of_some c (.peeked (contents c) (contents c).length) ?_ h rfl rfl rfl
  rw [step, hr, Option.map_some, hbytes, hret, length_contents]

theorem reset_refines (h : Wf c) (lvl : ℕ) : Refines lvl c.lenPow2 c .reset := by
  obtain ⟨c', hread, hwf, hk, hcont⟩ := cbufReadLocked_spec h lvl none (cbufSize c)
  have hmin : min (cbufSize c) (cbufSpaceUsed c) = (contents c).length := by
    rw [length_contents]
    exact Nat.min_eq_right h.used_lt.le
  refine refines_of_some c' .reset ?_ hwf hk ?_ rfl
  · simp [step, cbufReset, cbufRead, hread]
  · rw [hcont, hmin, List.drop_length]

/-- **Every call refines the queue's.** -/
theorem step_refines (h : Wf c) (lvl : ℕ) :
    ∀ op : Op, op.Allowed lvl c.lenPow2 → Refines lvl c.lenPow2 c op
  | .write src _, hop => write_refines h src hop
  | .writeChar ch, _ => writeChar_refines h lvl ch
  | .read dst buflen block, _ => read_refines h lvl dst buflen block
  | .readChar block, _ => readChar_refines h lvl block
  | .peek, _ => peek_refines h lvl
  | .reset, _ => reset_refines h lvl

theorem cbufInitializeEtc_eq {k : ℕ} (hk : k ≤ 31) (lvl : ℕ) (buf : ℕ → UInt8) :
    cbufInitializeEtc lvl (2 ^ k) buf = some ⟨0, 0, k, buf, false⟩ := by
  rw [cbufInitializeEtc, if_pos ⟨.of (Nat.two_pow_pos k), .of (ispow2_two_pow hk)⟩,
    log2Uint_two_pow hk]

/-- What the header promises of a buffer of `len` bytes over the calls `ops`:
it starts empty, its calls are those of a byte queue of capacity `len - 1`,
and in the state they leave, the free and the used space add up to `len - 1`
and the event is signalled exactly while there is something to read. -/
def BehavesAsFifo (lvl len : ℕ) (buf : ℕ → UInt8) (ops : List Op) : Prop :=
  ∃ c, cbufInitializeEtc lvl len buf = some c ∧ contents c = [] ∧
    (Machine.trace (step lvl) c ops).map (Prod.map contents id)
      = Machine.trace (fifoStep (len - 1)) [] ops ∧
    ∀ c' os, Machine.trace (step lvl) c ops = some (c', os) →
      cbufSpaceAvail c' + cbufSpaceUsed c' = len - 1 ∧
        cbufSpaceUsed c' = (contents c').length ∧ (c'.event = true ↔ contents c' ≠ [])

/-- **The circular buffer is a byte queue.**  For every power-of-two length a
`uint` can hold, every initial memory and every sequence of calls the build
does not stop. -/
theorem cbuf_refines_fifo (lvl : ℕ) {k : ℕ} (hk : k ≤ 31) (buf : ℕ → UInt8) (ops : List Op)
    (hops : ∀ op ∈ ops, op.Allowed lvl k) : BehavesAsFifo lvl (2 ^ k) buf ops := by
  have hb : Bounded ⟨0, 0, k, buf, false⟩ := ⟨hk, Nat.two_pow_pos k, Nat.two_pow_pos k⟩
  have hwf : Wf ⟨0, 0, k, buf, false⟩ := ⟨hb, by simp⟩
  have hnil : contents ⟨0, 0, k, buf, false⟩ = [] := hb.contents_eq_nil_iff.2 rfl
  obtain ⟨htrace, hinv⟩ := Machine.trace_refines
    (fun c => Wf c ∧ c.lenPow2 = k) contents (Op.Allowed lvl k)
    (fun c op ⟨hc, hck⟩ hop => hck ▸ (step_refines hc lvl op (hck.symm ▸ hop)).1)
    (fun c op c' o ⟨hc, hck⟩ hop h => by
      have := (step_refines hc lvl op (hck.symm ▸ hop)).2 c' o h
      rwa [hck] at this)
    ops ⟨0, 0, k, buf, false⟩ ⟨hwf, rfl⟩ hops
  refine ⟨_, cbufInitializeEtc_eq hk lvl buf, hnil, by rw [htrace, hnil], fun c' os h => ?_⟩
  obtain ⟨hc', rfl⟩ := hinv c' os h
  have hu := hc'.used_lt
  refine ⟨?_, (length_contents c').symm, ?_⟩
  · rw [hc'.avail_eq]; omega
  · rw [hc'.event_iff, ne_eq, ne_eq, hc'.contents_eq_nil_iff]

/-- Three bytes into a buffer of four, two of them out, in a debug build. -/
theorem cbuf_refines_fifo_four : BehavesAsFifo 2 4 (fun _ => 0)
    [.write (some fun i => (i + 1).toUInt8) 3, .read none 2 false, .readChar true] :=
  cbuf_refines_fifo 2 (k := 2) (by norm_num) _ _ (by
    intro op hop
    simp only [List.mem_cons, List.not_mem_nil, or_false] at hop
    rcases hop with rfl | rfl | rfl
    · exact DebugAssert.of (by norm_num)
    · trivial
    · trivial)

/-- **Not for every power-of-two length, nor for every write.**  A buffer of
`2 ^ 32` bytes is taken for one of a single byte, since `log2_uint` reads the
length as a `uint`; and a debug build stops at a write of `len` bytes. -/
theorem cbuf_not_fifo_of_all :
    (∀ lvl, ¬ BehavesAsFifo lvl (2 ^ 32) (fun _ => 0) []) ∧
      ¬ BehavesAsFifo 2 1 (fun _ => 0) [.write none 1] := by
  constructor
  · rintro lvl ⟨c, hc, -, -, h⟩
    have hlog : log2Uint (2 ^ 32) = 0 := by decide
    have hc' : c = ⟨0, 0, 0, fun _ => 0, false⟩ := by
      unfold cbufInitializeEtc at hc
      split_ifs at hc
      rw [hlog] at hc
      exact (Option.some.inj hc).symm
    subst hc'
    have := (h _ _ rfl).1
    revert this
    decide
  · rintro ⟨c, hc, -, h, -⟩
    obtain rfl : c = ⟨0, 0, 0, fun _ => 0, false⟩ := by
      rw [show (1 : ℕ) = 2 ^ 0 from rfl, cbufInitializeEtc_eq (by norm_num)] at hc
      exact (Option.some.inj hc).symm
    have hstop : step 2 ⟨0, 0, 0, fun _ => 0, false⟩ (.write none 1) = none := by
      rw [step, cbufWrite, if_neg (by decide)]
      rfl
    simp [Machine.trace, hstop, fifoStep] at h

end Cbuf
end LittleKernel
