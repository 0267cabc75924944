/-
# The logs of a buffer as rings

`Log` is what a log is for: the bytes written to it and the place behind the last byte that
was read.  What is unread is the end of what was written, at most `size - 1` bytes of it
(`Log.unread`).

`Ring` is the relation between a log in memory and such a log, and each call on the log keeps
it.  The logs lie one behind the other (`offset`), and `Stored` says of a buffer that its logs
are rings; a call touches one of them and leaves the others (`Stored.change`).
-/

import LittleKernel.Klog.Basic

namespace LittleKernel
namespace Klog

open Memory Word Bytes

section Spec

/-- The bytes written to a log, and how many of them lie before the place behind the last
byte that was read. -/
structure Log where
  written : List UInt8
  seen : ℕ

/-- How many bytes are unread in a log of `size` bytes. -/
def Log.pending (size : ℕ) (l : Log) : ℕ := min (l.written.length - l.seen) (size - 1)

/-- The unread bytes: the last ones written. -/
def Log.unread (size : ℕ) (l : Log) : List UInt8 :=
  l.written.drop (l.written.length - l.pending size)

def Log.put (bytes : List UInt8) (l : Log) : Log := { l with written := l.written ++ bytes }

/-- `n` of the unread bytes are read. -/
def Log.read (size n : ℕ) (l : Log) : Log :=
  if min n (l.pending size) = 0 then l
  else { l with seen := l.written.length - l.pending size + min n (l.pending size) }

/-- The logs of a buffer and the current one. -/
structure Logs where
  current : ℕ
  log : ℕ → Log

def Logs.update (f : Log → Log) (a : Logs) : Logs :=
  { a with log := Function.update a.log a.current (f (a.log a.current)) }

/-- The bytes of a piece of output: up to a NUL. -/
def output (str : List UInt8) (len : ℕ) : List UInt8 := (str.take len).takeWhile (· ≠ 0)

/-- Nothing was written yet. -/
def Logs.start : Logs := ⟨0, fun _ => ⟨[], 0⟩⟩

/-- The unread bytes of the log `i`, as `klog_get_buffer` finds them. -/
def unreadBytes (s : State) (i : ℕ) : Option (List UInt8) :=
  (klogGetBuffer i s).map fun vec => vec.flatMap fun v => window s.mem v.1 v.2

end Spec

section Log

variable {size n : ℕ} {l : Log}

theorem Log.pending_le (size : ℕ) (l : Log) : l.pending size ≤ l.written.length := by
  unfold Log.pending
  omega

@[simp] theorem Log.length_unread (size : ℕ) (l : Log) :
    (l.unread size).length = l.pending size := by
  have := l.pending_le size
  simp only [Log.unread, List.length_drop]
  omega

/-- One byte more: the oldest one goes when the ring is full. -/
theorem Log.unread_put (hs : 2 ≤ size) (hl : l.seen ≤ l.written.length) (c : UInt8) :
    (l.put [c]).unread size =
      if l.pending size + 1 < size then l.unread size ++ [c] else (l.unread size ++ [c]).drop 1 := by
  have hp := l.pending_le size
  have hput : (l.put [c]).pending size = min (l.written.length + 1 - l.seen) (size - 1) := by
    simp [Log.pending, Log.put]
  have hpend : l.pending size = min (l.written.length - l.seen) (size - 1) := rfl
  rw [Log.unread, hput, Log.unread, Log.put, List.length_append, List.length_singleton]
  by_cases h : l.pending size + 1 < size
  · rw [if_pos h, ← List.drop_append_of_le_length (by omega)]
    congr 1
    omega
  · rw [if_neg h, ← List.drop_append_of_le_length (by omega), List.drop_drop]
    congr 1
    omega

theorem Log.seen_read (hl : l.seen ≤ l.written.length) :
    (l.read size n).seen ≤ (l.read size n).written.length := by
  have := l.pending_le size
  unfold Log.read
  split_ifs
  · exact hl
  · simp only
    omega

theorem Log.unread_read (size n : ℕ) (l : Log) :
    (l.read size n).unread size = (l.unread size).drop n := by
  have hp := l.pending_le size
  unfold Log.read
  split_ifs with h
  · rcases Nat.eq_zero_or_pos n with rfl | hn
    · simp
    · have hnil : l.unread size = [] := List.eq_nil_of_length_eq_zero (by simp; omega)
      rw [hnil, List.drop_nil]
  · have hpend : Log.pending size ⟨l.written, l.written.length - l.pending size +
        min n (l.pending size)⟩ = l.pending size - min n (l.pending size) := by
      unfold Log.pending at hp h ⊢
      simp only
      omega
    simp only [Log.unread, hpend, List.drop_drop]
    rcases Nat.le_total n (l.pending size) with hn | hn
    · congr 1
      omega
    · rw [List.drop_eq_nil_of_le (by omega), List.drop_eq_nil_of_le (by omega)]

end Log

section Ring

/-- How many bytes of a ring lie between its positions. -/
def used (size head tail : ℕ) : ℕ := if tail ≤ head then head - tail else head + size - tail

theorem used_lt {size head tail : ℕ} (hh : head < size) (ht : tail < size) :
    used size head tail < size := by
  unfold used
  split_ifs <;> omega

theorem head_eq {size head tail : ℕ} (hh : head < size) (ht : tail < size) :
    (tail + used size head tail) % size = head := by
  have hu := used_lt hh ht
  rw [mod_of_lt_two_mul (by omega)]
  unfold used at hu ⊢
  split_ifs at hu ⊢ <;> omega

theorem wrapped_eq {size pos : ℕ} (hw : pos < 2 ^ 32) (hp : pos < 2 * size) :
    wrapped size pos = pos % size := by
  rw [mod_of_lt_two_mul hp, wrapped]
  split_ifs with h h'
  · omega
  · exact sub32_of_le hw h
  · rfl
  · omega

/-- The data of the log at `k`. -/
def dataAt (m : ℕ → UInt8) (k : ℕ) : ℕ → UInt8 := fun i => m (k + 20 + i)

/-- **A log in memory**: the log at `k` has `size` bytes of data, its checksum is right
once `sum` is added, and its unread bytes are those of `l`. -/
structure Ring (m : ℕ → UInt8) (k size sum : ℕ) (l : Log) : Prop where
  magic : load32 m k = klogHeaderMagic
  size_eq : load32 m (k + 4) = size
  head_lt : load32 m (k + 8) < size
  tail_lt : load32 m (k + 12) < size
  checksum : (load32 m (k + 16) + sum) % 2 ^ 32 = byteSum m (k + 20) size % 2 ^ 32
  unread : ring (dataAt m k) size (load32 m (k + 12))
    (used size (load32 m (k + 8)) (load32 m (k + 12))) = l.unread size
  seen : l.seen ≤ l.written.length

variable {m m' : ℕ → UInt8} {k size sum : ℕ} {l : Log}

/-- Nothing outside a log is part of it. -/
theorem Ring.frame (h : Ring m k size sum l) (hm : ∀ i, k ≤ i → i < k + 20 + size → m' i = m i) :
    Ring m' k size sum l := by
  have hload : ∀ j, j + 4 ≤ 20 → load32 m' (k + j) = load32 m (k + j) := fun j hj =>
    load32_congr fun i hi hi' => hm i (by omega) (by omega)
  have hring : ∀ tail n, 0 < size →
      ring (dataAt m' k) size tail n = ring (dataAt m k) size tail n := by
    intro tail n hs
    refine List.map_congr_left fun i _ => hm _ (by omega) ?_
    have := Nat.mod_lt (tail + i) hs
    omega
  refine ⟨?_, ?_, ?_, ?_, ?_, ?_, h.seen⟩
  · exact (hload 0 (by omega)).trans h.magic
  · rw [hload 4 (by omega), h.size_eq]
  · rw [hload 8 (by omega)]
    exact h.head_lt
  · rw [hload 12 (by omega)]
    exact h.tail_lt
  · rw [hload 16 (by omega), byteSum_congr fun i hi hi' => hm i (by omega) (by omega)]
    exact h.checksum
  · rw [hload 8 (by omega), hload 12 (by omega), hring _ _ (by have := h.head_lt; omega)]
    exact h.unread

theorem Ring.pending_eq (h : Ring m k size sum l) :
    l.pending size = used size (load32 m (k + 8)) (load32 m (k + 12)) := by
  rw [← l.length_unread size, ← h.unread, length_ring]

/-- What one pass of the loop of `klog_puts_len` does to the log at `k`. -/
theorem putByte_spec (h : Ring m k size sum l) (hs : size < 2 ^ 32) (c : UInt8) :
    (∀ i, i < k + 8 ∨ k + 16 ≤ i → i ≠ k + 20 + load32 m (k + 8) → putByte k c m i = m i) ∧
    putByte k c m (k + 20 + load32 m (k + 8)) = c ∧
    load32 (putByte k c m) (k + 8) = (load32 m (k + 8) + 1) % size ∧
    load32 (putByte k c m) (k + 12) =
      if load32 m (k + 12) = (load32 m (k + 8) + 1) % size then (load32 m (k + 12) + 1) % size
      else load32 m (k + 12) := by
  have hh := h.head_lt
  have ht := h.tail_lt
  have hm₁ : ∀ i, i ≠ k + 20 + load32 m (k + 8) →
      store m (k + 20 + load32 m (k + 8)) [c] i = m i :=
    fun i hi => store_of_not_mem (by simp only [List.length_singleton]; omega)
  have hm₁c : store m (k + 20 + load32 m (k + 8)) [c] (k + 20 + load32 m (k + 8)) = c := by
    simp [store]
  have hload : ∀ j, j + 4 ≤ 20 →
      load32 (store m (k + 20 + load32 m (k + 8)) [c]) (k + j) = load32 m (k + j) := fun j hj =>
    load32_congr fun i hi hi' => hm₁ i (by omega)
  have hnewhead : wrapped size (u32 (load32 m (k + 8) + 1)) = (load32 m (k + 8) + 1) % size := by
    rw [u32_of_lt (by omega), wrapped_eq (by omega) (by omega)]
  have hnewtail : wrapped size (u32 (load32 m (k + 12) + 1)) = (load32 m (k + 12) + 1) % size := by
    rw [u32_of_lt (by omega), wrapped_eq (by omega) (by omega)]
  have hlt : ∀ x, x % size % 2 ^ 32 = x % size := fun x =>
    Nat.mod_eq_of_lt (by have := Nat.mod_lt x (show 0 < size by omega); omega)
  simp only [putByte, hload 4 (by omega), hload 8 (by omega), hload 12 (by omega), h.size_eq,
    hnewhead, hnewtail]
  generalize store m (k + 20 + load32 m (k + 8)) [c] = m₁ at hm₁ hm₁c hload
  by_cases hfull : load32 m (k + 12) = (load32 m (k + 8) + 1) % size
  · simp only [if_pos hfull]
    refine ⟨fun i hi hi' => ?_, ?_, ?_, ?_⟩
    · rw [store32_of_not_mem (by omega), store32_of_not_mem (by omega), hm₁ i hi']
    · rw [store32_of_not_mem (by omega), store32_of_not_mem (by omega), hm₁c]
    · rw [load32_store32, hlt]
    · rw [load32_store32_of_ne (by omega), load32_store32, hlt]
  · simp only [if_neg hfull]
    refine ⟨fun i hi hi' => ?_, ?_, ?_, ?_⟩
    · rw [store32_of_not_mem (by omega), hm₁ i hi']
    · rw [store32_of_not_mem (by omega), hm₁c]
    · rw [load32_store32, hlt]
    · rw [load32_store32_of_ne (by omega), hload 12 (by omega)]

theorem used_succ {size head tail : ℕ} (hh : head < size) (ht : tail < size) :
    (tail ≠ (head + 1) % size → used size ((head + 1) % size) tail = used size head tail + 1 ∧
      used size head tail + 1 < size) ∧ (tail = (head + 1) % size → used size head tail + 1 = size ∧
      used size ((head + 1) % size) ((tail + 1) % size) = used size head tail) := by
  have h₁ := mod_of_lt_two_mul (show head + 1 < 2 * size by omega)
  have h₂ := mod_of_lt_two_mul (show tail + 1 < 2 * size by omega)
  rw [h₁, h₂]
  unfold used
  constructor
  · intro hne
    split_ifs at hne ⊢ <;> omega
  · intro he
    split_ifs at he ⊢ <;> omega

/-- **One byte is put.** -/
theorem Ring.putByte (h : Ring m k size sum l) (hs : size < 2 ^ 32) (hs' : 2 ≤ size) (c : UInt8) :
    Ring (putByte k c m) k size (deltasum m k sum c) (l.put [c]) := by
  obtain ⟨hother, hnew, hhead, htail⟩ := putByte_spec h hs c
  have hh := h.head_lt
  have ht := h.tail_lt
  have hmod : ∀ x, x % size < size := fun x => Nat.mod_lt x (by omega)
  have hload : ∀ j, j = 0 ∨ j = 4 ∨ j = 16 →
      load32 (Klog.putByte k c m) (k + j) = load32 m (k + j) := fun j hj =>
    load32_congr fun i hi hi' => hother i (by omega) (by omega)
  have hdata : ∀ i < size, dataAt (Klog.putByte k c m) k i =
      copy (dataAt m k) (load32 m (k + 8)) (fun _ => c) 0 1 i := by
    intro i hi
    by_cases he : i = load32 m (k + 8)
    · rw [he, copy_of_mem (by omega) (by omega), dataAt, hnew]
    · rw [copy_of_not_mem (by omega), dataAt, dataAt, hother _ (by omega) (by omega)]
  refine ⟨?_, ?_, ?_, ?_, ?_, ?_, ?_⟩
  · exact (hload 0 (by omega)).trans h.magic
  · rw [hload 4 (by omega), h.size_eq]
  · rw [hhead]
    exact hmod _
  · rw [htail]
    split_ifs
    · exact hmod _
    · exact ht
  · have hsum : byteSum (Klog.putByte k c m) (k + 20) size =
        byteSum (store m (k + 20 + load32 m (k + 8)) [c]) (k + 20) size := by
      refine byteSum_congr fun i hi hi' => ?_
      by_cases he : i = k + 20 + load32 m (k + 8)
      · rw [he, hnew]
        simp [store]
      · rw [hother i (by omega) he, store_of_not_mem (by simp only [List.length_singleton]; omega)]
    have hstore := byteSum_store m c (a := k + 20) hh
    have hold := (m (k + 20 + load32 m (k + 8))).toNat_lt
    have := h.checksum
    rw [hload 16 (by omega), hsum]
    unfold deltasum u32
    omega
  · have hring : ring (dataAt (Klog.putByte k c m) k) size (load32 m (k + 12))
        (used size (load32 m (k + 8)) (load32 m (k + 12)) + 1) = l.unread size ++ [c] := by
      have hcopy := ring_copy (dataAt m k) (fun _ => c) 0 ht
        (show used size (load32 m (k + 8)) (load32 m (k + 12)) + 1 ≤ size from used_lt hh ht)
        (by rw [head_eq hh ht]; omega)
      rw [head_eq hh ht, h.unread] at hcopy
      rw [show l.unread size ++ [c] = l.unread size ++ window (fun _ => c) 0 1 from rfl, ← hcopy]
      exact List.map_congr_left fun i _ => hdata _ (hmod _)
    have hused := used_succ hh ht
    rw [hhead, htail, Log.unread_put hs' h.seen, h.pending_eq]
    by_cases hfull : load32 m (k + 12) = (load32 m (k + 8) + 1) % size
    · obtain ⟨hsize, hsame⟩ := hused.2 hfull
      rw [if_pos hfull, if_neg (by omega), hsame, ← hring,
        ← ring_advance _ _ _ _ _ (by omega : 1 ≤ _ + 1), Nat.add_sub_cancel]
    · obtain ⟨hmore, hlt⟩ := hused.1 hfull
      rw [if_neg hfull, if_pos hlt, hmore, hring]
  · have := h.seen
    simp only [Log.put, List.length_append, List.length_singleton]
    omega

theorem putByte_of_not_mem (h : Ring m k size sum l) (hs : size < 2 ^ 32) (c : UInt8) {i : ℕ}
    (hi : i < k ∨ k + 20 + size ≤ i) : putByte k c m i = m i := by
  have := h.head_lt
  exact (putByte_spec h hs c).1 i (by omega) (by omega)

theorem output_cons_of_ne {c : UInt8} (hc : c ≠ 0) (str : List UInt8) (len : ℕ) :
    output (c :: str) (len + 1) = c :: output str len := by
  simp [output, hc]

theorem put_put (l : Log) (b b' : List UInt8) : (l.put b).put b' = l.put (b ++ b') := by
  simp [Log.put]

theorem put_nil (l : Log) : l.put [] = l := by
  simp [Log.put]

/-- **The loop of `klog_puts_len`** puts the bytes of the output, and stays in its log. -/
theorem Ring.putsLoop (hs : size < 2 ^ 32) (hs' : 2 ≤ size) :
    ∀ (str : List UInt8) (len sum : ℕ) (m : ℕ → UInt8) (l : Log), Ring m k size sum l →
      Ring (putsLoop k str len sum m).1 k size (putsLoop k str len sum m).2
        (l.put (output str len)) ∧
      ∀ i, i < k ∨ k + 20 + size ≤ i → (Klog.putsLoop k str len sum m).1 i = m i := by
  intro str
  induction str with
  | nil =>
    intro len sum m l h
    refine ⟨?_, fun _ _ => rfl⟩
    simpa [Klog.putsLoop, output, put_nil] using h
  | cons c str ih =>
    intro len sum m l h
    cases len with
    | zero =>
      refine ⟨?_, fun _ _ => rfl⟩
      simpa [Klog.putsLoop, output, put_nil] using h
    | succ len =>
      by_cases hc : c = 0
      · refine ⟨?_, fun _ _ => by simp [Klog.putsLoop, hc]⟩
        simpa [Klog.putsLoop, output, hc, put_nil] using h
      · obtain ⟨hput, hframe⟩ := ih len (deltasum m k sum c) (Klog.putByte k c m) (l.put [c])
          (h.putByte hs hs' c)
        rw [put_put] at hput
        rw [output_cons_of_ne hc, Klog.putsLoop, if_neg hc]
        exact ⟨hput, fun i hi => (hframe i hi).trans (putByte_of_not_mem h hs c hi)⟩

theorem Ring.addSum (h : Ring m k size sum l) :
    Ring (store32 m (k + 16) (u32 (load32 m (k + 16) + sum))) k size 0 l := by
  have hload : ∀ j, j + 4 ≤ 16 → load32 (store32 m (k + 16) (u32 (load32 m (k + 16) + sum)))
      (k + j) = load32 m (k + j) := fun j hj => load32_store32_of_ne (by omega)
  have hdata : dataAt (store32 m (k + 16) (u32 (load32 m (k + 16) + sum))) k = dataAt m k := by
    funext i
    exact store32_of_not_mem (by omega)
  refine ⟨?_, ?_, ?_, ?_, ?_, ?_, h.seen⟩
  · exact (hload 0 (by omega)).trans h.magic
  · rw [hload 4 (by omega), h.size_eq]
  · rw [hload 8 (by omega)]
    exact h.head_lt
  · rw [hload 12 (by omega)]
    exact h.tail_lt
  · have := h.checksum
    rw [load32_store32, byteSum_store32_of_ne (by omega), u32]
    omega
  · rw [hload 8 (by omega), hload 12 (by omega), hdata]
    exact h.unread

/-- **`klog_puts_len` on the log at `k`.** -/
theorem Ring.klogPutsLen {s : State} (h : Ring s.mem s.klog size 0 l) (hs : size < 2 ^ 32)
    (hs' : 2 ≤ size) (str : List UInt8) (len : ℕ) :
    Ring (klogPutsLen str len s).mem s.klog size 0 (l.put (output str len)) ∧
      ∀ i, i < s.klog ∨ s.klog + 20 + size ≤ i → (Klog.klogPutsLen str len s).mem i = s.mem i := by
  obtain ⟨hring, hframe⟩ := Ring.putsLoop hs hs' str len 0 s.mem l h
  refine ⟨hring.addSum, fun i hi => ?_⟩
  exact (store32_of_not_mem (by omega)).trans (hframe i hi)

/-- The runs that `klog_get_buffer` returns for the log at `k`. -/
def runs (m : ℕ → UInt8) (k : ℕ) : List (ℕ × ℕ) :=
  let head := load32 m (k + 8)
  let tail := load32 m (k + 12)
  if head = tail then []
  else if tail < head then [(k + 20 + tail, head - tail)]
  else [(k + 20 + tail, sub32 (load32 m (k + 4)) tail), (k + 20, head)]

theorem klogGetBuffer_eq (buffer : ℤ) (s : State) :
    klogGetBuffer buffer s =
      if 0 ≤ buffer ∧ (load32 s.mem 8 : ℤ) ≤ buffer then none
      else some (runs s.mem (if buffer < 0 then s.klog else findNthLog s.mem buffer.toNat)) := by
  unfold klogGetBuffer runs
  generalize (if buffer < 0 then s.klog else findNthLog s.mem buffer.toNat) = k
  simp only
  split_ifs <;> rfl

theorem window_dataAt (m : ℕ → UInt8) (k i n : ℕ) :
    window m (k + 20 + i) n = window (dataAt m k) i n :=
  window_congr fun j _ => by rw [dataAt, Nat.add_assoc]

/-- **The runs are the unread bytes.** -/
theorem Ring.runs_eq (h : Ring m k size sum l) (hs : size < 2 ^ 32) :
    ((runs m k).flatMap fun v => window m v.1 v.2) = l.unread size := by
  have hh := h.head_lt
  have ht := h.tail_lt
  rw [← h.unread, runs, h.size_eq]
  generalize load32 m (k + 8) = head at *
  generalize load32 m (k + 12) = tail at *
  split_ifs with h₁ h₂
  · simp [h₁, used]
  · simp only [List.flatMap_cons, List.flatMap_nil, List.append_nil, window_dataAt]
    have hu : used size head tail = head - tail := by simp [used, h₂.le]
    rw [hu, window_eq_take_ring (dataAt m k) (le_refl _) (by omega : tail + (head - tail) ≤ size)]
    exact List.take_of_length_le (by simp)
  · have hu : used size head tail = size - tail + head := by
      rw [used, if_neg (by omega)]
      omega
    simp only [List.flatMap_cons, List.flatMap_nil, List.append_nil, window_dataAt]
    rw [sub32_of_le (by omega) ht.le, hu, ring, List.range_add, List.map_append, List.map_map]
    congr 1
    · refine List.map_congr_left fun i hi => ?_
      rw [Nat.mod_eq_of_lt (by have := List.mem_range.1 hi; omega)]
    · refine List.map_congr_left fun i hi => ?_
      have := List.mem_range.1 hi
      change m (k + 20 + i) = dataAt m k ((tail + (size - tail + i)) % size)
      rw [show tail + (size - tail + i) = size + i by omega, Nat.add_mod_left,
        Nat.mod_eq_of_lt (by omega), dataAt]

/-- **The tail moves over what was read**, if it can be told from where it was. -/
theorem Ring.advanceTail (h : Ring m k size 0 l) (hs : size < 2 ^ 32) {n : ℕ}
    (htop : load32 m (k + 12) + min n (l.pending size) < 2 ^ 32) :
    Ring (advanceTail k (min n (l.pending size)) m) k size 0 (l.read size n) := by
  have hh := h.head_lt
  have ht := h.tail_lt
  have hu := used_lt hh ht
  have hpend := h.pending_eq
  have hload : ∀ j, j + 4 ≤ 12 ∨ 16 ≤ j → load32 (Klog.advanceTail k (min n (l.pending size)) m)
      (k + j) = load32 m (k + j) := fun j hj => load32_store32_of_ne (by omega)
  have htail : load32 (Klog.advanceTail k (min n (l.pending size)) m) (k + 12) =
      (load32 m (k + 12) + min n (l.pending size)) % size := by
    rw [Klog.advanceTail, load32_store32, h.size_eq, u32_of_lt (by omega),
      wrapped_eq htop (by omega)]
    exact Nat.mod_eq_of_lt (by
      have := Nat.mod_lt (load32 m (k + 12) + min n (l.pending size)) (show 0 < size by omega)
      omega)
  have hdata : dataAt (Klog.advanceTail k (min n (l.pending size)) m) k = dataAt m k := by
    funext i
    exact store32_of_not_mem (by omega)
  refine ⟨?_, ?_, ?_, ?_, ?_, ?_, Log.seen_read h.seen⟩
  · exact (hload 0 (by omega)).trans h.magic
  · rw [hload 4 (by omega), h.size_eq]
  · rw [hload 8 (by omega)]
    exact hh
  · rw [htail]
    exact Nat.mod_lt _ (by omega)
  · rw [hload 16 (by omega), Klog.advanceTail, byteSum_store32_of_ne (by omega)]
    exact h.checksum
  · have hused : used size (load32 m (k + 8))
        ((load32 m (k + 12) + min n (l.pending size)) % size) =
        used size (load32 m (k + 8)) (load32 m (k + 12)) - min n (l.pending size) := by
      have hmod := mod_of_lt_two_mul
        (show load32 m (k + 12) + min n (l.pending size) < 2 * size by omega)
      have hle : min n (l.pending size) ≤ used size (load32 m (k + 8)) (load32 m (k + 12)) := by
        omega
      generalize min n (l.pending size) = r at *
      rw [hmod]
      unfold used at *
      split_ifs at * <;> omega
    rw [hload 8 (by omega), htail, hdata, hused, ring_advance _ _ _ _ _ (by omega), h.unread,
      Log.unread_read]
    rcases Nat.le_total n (l.pending size) with hn | hn
    · rw [Nat.min_eq_left hn]
    · rw [Nat.min_eq_right hn, List.drop_eq_nil_of_le (by simp), List.drop_eq_nil_of_le (by simpa)]

/-- **What `klog_read` does** with the log at `k`: it reads that one, and moves the tail of the
log at `klog`. -/
theorem Ring.klogRead {s : State} {bufId : ℤ} (h : Ring s.mem k size 0 l) (hs : size < 2 ^ 32)
    (hget : klogGetBuffer bufId s = some (runs s.mem k)) (len : ℕ) :
    Klog.klogRead len bufId s = (some ((l.unread size).take len),
      if l.pending size = 0 then s
      else { s with mem := Klog.advanceTail s.klog (min len (l.pending size)) s.mem }) := by
  have hruns := h.runs_eq hs
  have hempty : runs s.mem k = [] ↔ l.pending size = 0 := by
    have hh := h.head_lt
    have ht := h.tail_lt
    rw [h.pending_eq, runs, used]
    split_ifs <;> simp <;> omega
  have hlen : ((l.unread size).take len).length = min len (l.pending size) := by
    rw [List.length_take, Log.length_unread]
  have htake : ∀ r p n, window s.mem p (min r n) = (window s.mem p n).take r := by
    intro r p n
    rw [window, window, ← List.map_take, List.take_range]
  unfold Klog.klogRead
  rw [hget]
  rcases hr : runs s.mem k with _ | ⟨v, _ | ⟨v', vec⟩⟩
  · rw [hr, List.flatMap_nil] at hruns
    rw [if_pos (hempty.1 hr), ← hruns, List.take_nil]
  · rw [hr, List.flatMap_cons, List.flatMap_nil, List.append_nil] at hruns
    have hbuf : window s.mem v.1 (min len v.2) = (l.unread size).take len := by
      rw [htake, hruns]
    rw [if_neg fun h0 => by rw [hempty.2 h0] at hr; cases hr]
    simp only [hbuf, hlen]
  · obtain rfl : vec = [] := by
      unfold runs at hr
      simp only at hr
      split_ifs at hr
      · cases (List.cons.inj hr).2
      · exact (List.cons.inj (List.cons.inj hr).2).2.symm
    rw [hr, List.flatMap_cons, List.flatMap_cons, List.flatMap_nil, List.append_nil] at hruns
    have hbuf : (if len - (window s.mem v.1 (min len v.2)).length ≠ 0 then
        window s.mem v.1 (min len v.2) ++
          window s.mem v'.1 (min (len - (window s.mem v.1 (min len v.2)).length) v'.2)
        else window s.mem v.1 (min len v.2)) = (l.unread size).take len := by
      rw [← hruns, List.take_append, length_window, length_window, ← htake]
      split_ifs with hrest
      · rw [show len - min len v.2 = len - v.2 by omega, htake (len - v.2)]
      · rw [show len - v.2 = 0 by omega, List.take_zero, List.append_nil]
    rw [if_neg fun h0 => by rw [hempty.2 h0] at hr; cases hr]
    simp only [hbuf, hlen]

end Ring

section Buffer

/-- Where the log `i` starts. -/
def offset (size i : ℕ) : ℕ := 20 + i * (20 + size)

theorem offset_succ (size i : ℕ) : offset size (i + 1) = offset size i + 20 + size := by
  simp only [offset, Nat.add_mul]
  omega

theorem offset_le (size : ℕ) {i j : ℕ} (h : i < j) : offset size i + 20 + size ≤ offset size j := by
  have := Nat.mul_le_mul_right (20 + size) (show i + 1 ≤ j from h)
  rw [← offset_succ, offset, offset]
  omega

/-- **The logs that are in a buffer**, each of them a ring of `size` bytes. -/
structure Stored (size count : ℕ) (s : State) (a : Logs) : Prop where
  size_ge : 2 ≤ size
  size_lt : size < 2 ^ 32
  count_eq : load32 s.mem 8 = count
  current_eq : load32 s.mem 12 = a.current
  current_lt : a.current < count
  klog_eq : s.klog = offset size a.current
  log : ∀ i < count, Ring s.mem (offset size i) size 0 (a.log i)

variable {m m' : ℕ → UInt8} {size count : ℕ} {s : State} {a : Logs}

theorem findNthLogFrom_eq (hsize : ∀ i < count, load32 m (offset size i + 4) = size) :
    ∀ n i, n + i ≤ count → findNthLogFrom m n (offset size i) = offset size (n + i) := by
  intro n
  induction n with
  | zero => exact fun i _ => by rw [findNthLogFrom, Nat.zero_add]
  | succ n ih =>
    intro i hi
    rw [findNthLogFrom, hsize i (by omega), ← offset_succ, ih (i + 1) (by omega)]
    congr 1
    omega

variable {i : ℕ}

/-- A store into the header of the buffer is none into a log. -/
theorem Ring.frame_header {l : Log} (h : Ring m (offset size i) size 0 l)
    (hm : ∀ i, 20 ≤ i → m' i = m i) : Ring m' (offset size i) size 0 l :=
  h.frame fun j hj _ => hm j (by unfold offset at hj; omega)

theorem Stored.ring (h : Stored size count s a) : Ring s.mem s.klog size 0 (a.log a.current) :=
  h.klog_eq ▸ h.log a.current h.current_lt

/-- **A change of one log** leaves the rest of the buffer as it is. -/
theorem Stored.change {s' : State} {l : Log} (h : Stored size count s a)
    (hk : s'.klog = s.klog) (hlog : Ring s'.mem (offset size i) size 0 l)
    (hframe : ∀ x, x < offset size i ∨ offset size i + 20 + size ≤ x → s'.mem x = s.mem x) :
    Stored size count s' { a with log := Function.update a.log i l } := by
  have hhead : ∀ x < 20, s'.mem x = s.mem x := fun x hx => hframe x (.inl (by unfold offset; omega))
  have hload : ∀ j, j + 4 ≤ 20 → load32 s'.mem j = load32 s.mem j := fun j hj =>
    load32_congr fun x _ hx => hhead x (by omega)
  refine ⟨h.size_ge, h.size_lt, (hload 8 (by omega)).trans h.count_eq,
    (hload 12 (by omega)).trans h.current_eq, h.current_lt, hk.trans h.klog_eq, fun j hj => ?_⟩
  by_cases he : j = i
  · subst he
    simpa using hlog
  · simp only [Function.update_of_ne he]
    refine (h.log j hj).frame fun x hx hx' => hframe x ?_
    rcases Nat.lt_or_gt_of_ne he with hlt | hlt
    · have := offset_le size hlt
      omega
    · have := offset_le size hlt
      omega

/-- The walk of `find_nth_log` meets the logs. -/
structure Laid (size count : ℕ) (m : ℕ → UInt8) : Prop where
  count_eq : load32 m 8 = count
  size_eq : ∀ i < count, load32 m (offset size i + 4) = size

theorem Laid.findNthLog (h : Laid size count m) (hi : i ≤ count) :
    findNthLog m i = offset size i := by
  have := findNthLogFrom_eq h.size_eq i 0 (by omega)
  rw [Nat.add_zero] at this
  rw [← this, Klog.findNthLog, offset, Nat.zero_mul, Nat.add_zero]

theorem Laid.klogGetBuffer (h : Laid size count s.mem) (hi : i < count) :
    klogGetBuffer i s = some (runs s.mem (offset size i)) := by
  have hcount := h.count_eq
  rw [klogGetBuffer_eq, if_neg (by omega), if_neg (by omega), Int.toNat_natCast,
    h.findNthLog hi.le]

theorem Stored.laid (h : Stored size count s a) : Laid size count s.mem :=
  ⟨h.count_eq, fun i hi => (h.log i hi).size_eq⟩

theorem Stored.klogGetBuffer_current (h : Stored size count s a) {bufId : ℤ}
    (hbuf : bufId < 0 ∨ bufId = a.current) :
    Klog.klogGetBuffer bufId s = some (runs s.mem s.klog) := by
  rcases hbuf with hbuf | rfl
  · rw [klogGetBuffer_eq, if_neg (by omega), if_pos hbuf]
  · rw [h.laid.klogGetBuffer h.current_lt, h.klog_eq]

/-- `klog_get_buffer` finds the unread bytes of every log. -/
theorem Stored.unreadBytes (h : Stored size count s a) (hi : i < count) :
    unreadBytes s i = some ((a.log i).unread size) := by
  rw [Klog.unreadBytes, h.laid.klogGetBuffer hi, Option.map_some, (h.log i hi).runs_eq h.size_lt]

theorem update_put_put (a : Logs) (b b' : List UInt8) :
    (a.update (Log.put b)).update (Log.put b') = a.update (Log.put (b ++ b')) := by
  simp [Logs.update, put_put]

theorem update_put_nil (a : Logs) : a.update (Log.put []) = a := by
  simp [Logs.update, put_nil]

/-- Output on the current log stays in it. -/
theorem Stored.klogPutsLen (h : Stored size count s a) (str : List UInt8) (len : ℕ) :
    Stored size count (klogPutsLen str len s) (a.update (Log.put (output str len))) ∧
      ∀ i, i < s.klog ∨ s.klog + 20 + size ≤ i → (Klog.klogPutsLen str len s).mem i = s.mem i := by
  obtain ⟨hring, hframe⟩ := h.ring.klogPutsLen h.size_lt h.size_ge str len
  refine ⟨?_, hframe⟩
  rw [h.klog_eq] at hring hframe
  exact h.change rfl hring hframe

theorem Stored.klogPrintf (pieces : List (List UInt8 × ℕ)) :
    ∀ {s a}, Stored size count s a → Stored size count (klogPrintf pieces s)
          (a.update (Log.put (pieces.flatMap fun p => output p.1 p.2))) ∧
        (Klog.klogPrintf pieces s).klog = s.klog ∧
        ∀ i, i < s.klog ∨ s.klog + 20 + size ≤ i → (Klog.klogPrintf pieces s).mem i = s.mem i := by
  induction pieces with
  | nil =>
    intro s a h
    rw [List.flatMap_nil, update_put_nil]
    exact ⟨h, rfl, fun _ _ => rfl⟩
  | cons p pieces ih =>
    intro s a h
    obtain ⟨hput, hframe⟩ := h.klogPutsLen p.1 p.2
    obtain ⟨hrest, hk, hframe'⟩ := ih hput
    rw [List.flatMap_cons, ← update_put_put]
    exact ⟨hrest, hk, fun i hi => (hframe' i hi).trans (hframe i hi)⟩

/-- **A read of the current log** takes its oldest bytes. -/
theorem Stored.klogRead (h : Stored size count s a) {bufId : ℤ} {len : ℕ}
    (hbuf : bufId < 0 ∨ bufId = a.current)
    (htop : load32 s.mem (s.klog + 12) + min len ((a.log a.current).pending size) < 2 ^ 32) :
    ∃ s', Klog.klogRead len bufId s = (some (((a.log a.current).unread size).take len), s') ∧
      s'.klog = s.klog ∧ Stored size count s' (a.update (Log.read size len)) ∧
      ∀ i, i < s.klog ∨ s.klog + 20 + size ≤ i → s'.mem i = s.mem i := by
  refine ⟨_, h.ring.klogRead h.size_lt (h.klogGetBuffer_current hbuf) len, ?_⟩
  split_ifs with h0
  · refine ⟨rfl, ?_, fun _ _ => rfl⟩
    have hsame : a.update (Log.read size len) = a := by
      rw [Logs.update, Log.read, if_pos (by omega), Function.update_eq_self]
    rwa [hsame]
  · have hframe : ∀ i, i < s.klog ∨ s.klog + 20 + size ≤ i →
        Klog.advanceTail s.klog (min len ((a.log a.current).pending size)) s.mem i = s.mem i :=
      fun i hi => store32_of_not_mem (by omega)
    have hring := h.ring.advanceTail h.size_lt htop
    refine ⟨rfl, ?_, hframe⟩
    rw [h.klog_eq] at hring hframe ⊢
    exact h.change h.klog_eq.symm hring hframe

/-- **`klog_set_current_buffer`** finds the log and stores in the header. -/
theorem Stored.klogSetCurrentBuffer (h : Stored size count s a) (crc : List UInt8 → UInt32)
    {buffer : ℕ} (hb : buffer < count) : ∃ s', klogSetCurrentBuffer crc buffer s = some s' ∧
      Stored size count s' { a with current := buffer } ∧
      s'.mem = if buffer = a.current then s.mem
        else checksumKlogBufferHeader crc (store32 s.mem 12 buffer) := by
  have hcount : count < 2 ^ 32 := h.count_eq ▸ load32_lt s.mem 8
  unfold Klog.klogSetCurrentBuffer
  rw [h.count_eq, if_neg (by omega), h.laid.findNthLog hb.le, h.current_eq]
  by_cases hsame : buffer = a.current
  · simp only [if_neg (not_not.2 hsame), if_pos hsame]
    exact ⟨_, rfl, ⟨h.size_ge, h.size_lt, h.count_eq, hsame ▸ h.current_eq, hb, rfl, h.log⟩, rfl⟩
  · simp only [if_pos hsame, if_neg hsame]
    have hload : ∀ j, 8 ≤ j → load32 (checksumKlogBufferHeader crc (store32 s.mem 12 buffer)) j =
        load32 (store32 s.mem 12 buffer) j := fun j hj => load32_store32_of_ne (by omega)
    refine ⟨_, rfl, ⟨h.size_ge, h.size_lt, ?_, ?_, hb, rfl,
      fun i hi => (h.log i hi).frame_header fun j hj => ?_⟩, rfl⟩
    · rw [hload 8 (by omega), load32_store32_of_ne (by omega)]
      exact h.count_eq
    · rw [hload 12 (by omega), load32_store32]
      exact Nat.mod_eq_of_lt (show buffer < 2 ^ 32 by omega)
    · exact (store32_of_not_mem (by omega)).trans (store32_of_not_mem (by omega))

end Buffer

section Create

variable {m m' : ℕ → UInt8} {len size : ℕ}

theorem checksumLoop_eq (m : ℕ → UInt8) (k n : ℕ) :
    checksumLoop m k n = byteSum m (k + 20) n % 2 ^ 32 := by
  induction n with
  | zero => rfl
  | succ n ih => rw [checksumLoop, ih, byteSum_succ, u32, Nat.mod_add_mod]

theorem Ring.checksum_eq {k : ℕ} {l : Log} (h : Ring m k size 0 l) :
    getChecksumKlogData m k = load32 m (k + 16) := by
  have := h.checksum
  rw [getChecksumKlogData, checksumLoop_eq, h.size_eq, ← this, Nat.add_zero]
  exact Nat.mod_eq_of_lt (load32_lt m _)

/-- One pass of the loop of `klog_create` leaves an empty log. -/
theorem createLog_spec (hs : 0 < size) (hs' : size < 2 ^ 32) (k : ℕ) (m : ℕ → UInt8) :
    Ring (createLog size k m) k size 0 ⟨[], 0⟩ ∧
      ∀ i, i < k ∨ k + 20 + size ≤ i → createLog size k m i = m i := by
  simp only [createLog]
  generalize hm₀ : store32 (store32 (store32 (store32 (store32 m k klogHeaderMagic) (k + 4) size)
    (k + 8) 0) (k + 12) 0) (k + 16) 0 = m₀
  have hframe₀ : ∀ i, i < k ∨ k + 20 ≤ i → m₀ i = m i := by
    intro i hi
    rw [← hm₀, store32_of_not_mem (by omega), store32_of_not_mem (by omega),
      store32_of_not_mem (by omega), store32_of_not_mem (by omega), store32_of_not_mem (by omega)]
  have hload₀ : load32 m₀ k = klogHeaderMagic ∧ load32 m₀ (k + 4) = size ∧
      load32 m₀ (k + 8) = 0 ∧ load32 m₀ (k + 12) = 0 := by
    rw [← hm₀]
    refine ⟨?_, ?_, ?_, ?_⟩
    · rw [load32_store32_of_ne (by omega), load32_store32_of_ne (by omega),
        load32_store32_of_ne (by omega), load32_store32_of_ne (by omega), load32_store32]
      rfl
    · rw [load32_store32_of_ne (by omega), load32_store32_of_ne (by omega),
        load32_store32_of_ne (by omega), load32_store32, Nat.mod_eq_of_lt (by omega)]
    · rw [load32_store32_of_ne (by omega), load32_store32_of_ne (by omega), load32_store32,
        Nat.zero_mod]
    · rw [load32_store32_of_ne (by omega), load32_store32, Nat.zero_mod]
  generalize hm₁ : copy m₀ (k + 20) (fun _ => 0) 0 size = m₁
  have hload₁ : ∀ j, j + 4 ≤ 20 → load32 m₁ (k + j) = load32 m₀ (k + j) := fun j hj =>
    load32_congr fun i hi hi' => by rw [← hm₁, copy_of_not_mem (by omega)]
  have hload : ∀ j, j + 4 ≤ 16 → load32 (checksumKlogData m₁ k) (k + j) = load32 m₀ (k + j) :=
    fun j hj => (load32_store32_of_ne (by omega)).trans (hload₁ j (by omega))
  obtain ⟨hmagic, hsize, hhead, htail⟩ := hload₀
  refine ⟨⟨?_, ?_, ?_, ?_, ?_, ?_, Nat.zero_le _⟩, fun i hi => ?_⟩
  · exact (hload 0 (by omega)).trans hmagic
  · rw [hload 4 (by omega), hsize]
  · rw [hload 8 (by omega), hhead]
    exact hs
  · rw [hload 12 (by omega), htail]
    exact hs
  · rw [checksumKlogData, load32_store32, byteSum_store32_of_ne (by omega), getChecksumKlogData,
      checksumLoop_eq, hload₁ 4 (by omega), hsize]
    omega
  · rw [hload 8 (by omega), hload 12 (by omega), hhead, htail]
    simp [used, Log.unread]
  · rw [checksumKlogData, store32_of_not_mem (by omega), ← hm₁, copy_of_not_mem (by omega),
      hframe₀ i (by omega)]

/-- **The loop of `klog_create`** sets up empty logs one behind the other. -/
theorem createLogs_spec (hs : 0 < size) (hs' : size < 2 ^ 32) :
    ∀ n i m m', createLogs len size n (offset size i) m = some m' →
      (∀ j, i ≤ j → j < n + i → Ring m' (offset size j) size 0 ⟨[], 0⟩) ∧
        ∀ x < offset size i, m' x = m x := by
  intro n
  induction n with
  | zero =>
    intro i m m' h
    cases h
    exact ⟨fun j _ _ => by omega, fun _ _ => rfl⟩
  | succ n ih =>
    intro i m m' h
    rw [createLogs] at h
    split_ifs at h
    rw [← offset_succ] at h
    obtain ⟨hlogs, hframe⟩ := ih (i + 1) _ _ h
    obtain ⟨hlog, hframe'⟩ := createLog_spec hs hs' (offset size i) m
    refine ⟨fun j hj hj' => ?_, fun x hx => ?_⟩
    · rcases Nat.eq_or_lt_of_le hj with rfl | hlt
      · exact hlog.frame fun x _ hx => hframe x (by rw [offset_succ]; exact hx)
      · exact hlogs j hlt (by omega)
    · rw [hframe x (by rw [offset_succ]; omega), hframe' x (.inl hx)]

/-- The logs are set up where they fit. -/
theorem createLogs_isSome (len size : ℕ) :
    ∀ n i m, (createLogs len size n (offset size i) m).isSome = true ↔
      n = 0 ∨ offset size (n + i) ≤ len := by
  intro n
  induction n with
  | zero => simp [createLogs]
  | succ n ih =>
    intro i m
    rw [createLogs]
    have hle : offset size (i + 1) ≤ offset size (n + 1 + i) := by
      rcases Nat.eq_zero_or_pos n with rfl | hn
      · rw [Nat.zero_add, Nat.add_comm]
      · have := offset_le size (show i + 1 < n + 1 + i by omega)
        omega
    rw [offset_succ] at hle
    by_cases hfit : offset size i + 20 + size ≤ len
    · rw [if_pos hfit, ← offset_succ, ih, show n + (i + 1) = n + 1 + i by omega]
      constructor
      · rintro (rfl | h)
        · rw [Nat.zero_add, Nat.add_comm 1, offset_succ]
          exact .inr hfit
        · exact .inr h
      · rintro (h | h)
        · omega
        · exact .inr h
    · rw [if_neg hfit]
      simp only [Option.isSome_none, Bool.false_eq_true, false_iff]
      omega
end Create

end Klog
end LittleKernel
