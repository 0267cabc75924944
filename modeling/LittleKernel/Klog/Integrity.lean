/-
# Integrity and recovery of the kernel log

`abstractStep` answers the calls from what a log is for.

`Held` is the relation between a buffer and its logs that a recovery needs: the logs are
`Stored`, and the header and the size of a log pass the checks.  Every call keeps it and
answers as `abstractStep` does, and under it `klog_recover` finds what is there
(`Held.recover`).
`klog_create` sets it up where the size it asks for is not cut off by the width of `size_t`
(`klog_integrity`).
-/

import LittleKernel.Klog.Ring
import LittleKernel.Cksum

namespace LittleKernel
namespace Klog

open Memory Word Bytes

section Spec

def abstractStep (w size count : ℕ) (a : Logs) : Op → Option (Logs × Answer)
  | .puts str => some (a.update (Log.put (output str.bytes (2 ^ w - 1))), .done)
  | .printf pieces =>
    some (a.update (Log.put (pieces.flatMap fun p => output p.1 p.2)), .done)
  | .read len _ =>
    some (a.update (Log.read size len),
      .bytes (some (((a.log a.current).unread size).take len)))
  | .setCurrentBuffer buffer =>
    if buffer < count then some ({ a with current := buffer }, .selected true)
    else some (a, .selected false)

/-- A read is one of the current log. -/
def OnCurrent (a : Logs) : Op → Prop
  | .read _ bufId => bufId < 0 ∨ bufId = a.current
  | _ => True

/-- **What a buffer with `count` logs is owed.** -/
structure Intact (crc : List UInt8 → UInt32) (count : ℕ) (s : State) (a : Logs) : Prop where
  checksum : ∀ i < count, let k := findNthLog s.mem i
    load32 s.mem (k + 16) = byteSum s.mem (k + 20) (load32 s.mem (k + 4)) % 2 ^ 32
  positions : ∀ i < count, let k := findNthLog s.mem i
    load32 s.mem (k + 8) < load32 s.mem (k + 4) ∧ load32 s.mem (k + 12) < load32 s.mem (k + 4)
  unread : ∀ i < count,
    unreadBytes s i = some ((a.log i).unread (load32 s.mem (findNthLog s.mem i + 4)))
  current : load32 s.mem 12 = a.current ∧ s.klog = findNthLog s.mem a.current
  recover : klogRecover crc (some s.mem) = some s

end Spec

section Buffer

/-- The header of a buffer of `count` logs. -/
structure Header (crc : List UInt8 → UInt32) (m : ℕ → UInt8) (count current : ℕ) : Prop where
  magic : load32 m 0 = klogBufferHeaderMagic
  checksum : load32 m 4 = getChecksumKlogBufferHeader crc m
  count_eq : load32 m 8 = count
  current_eq : load32 m 12 = current
  total_le : load32 m 16 ≤ maxKlogSize

/-- **The logs that a buffer holds.** -/
structure Held (crc : List UInt8 → UInt32) (size count : ℕ) (s : State) (a : Logs) : Prop where
  size_mod : size % 4 = 0
  size_pos : 0 < size
  size_le : size ≤ maxKlogSize
  header : Header crc s.mem count a.current
  current_lt : a.current < count
  klog_eq : s.klog = offset size a.current
  log : ∀ i < count, Ring s.mem (offset size i) size 0 (a.log i)

variable {crc : List UInt8 → UInt32} {m m' : ℕ → UInt8} {size count current : ℕ} {s : State}
  {a : Logs}

theorem Header.frame (h : Header crc m count current) (hm : ∀ i < 20, m' i = m i) :
    Header crc m' count current := by
  have hload : ∀ j, j + 4 ≤ 20 → load32 m' j = load32 m j := fun j hj =>
    load32_congr fun i hi hi' => hm i (by omega)
  have hcrc : getChecksumKlogBufferHeader crc m' = getChecksumKlogBufferHeader crc m := by
    rw [getChecksumKlogBufferHeader, window_congr fun i hi => hm (8 + i) (by omega)]
    rfl
  constructor
  · rw [hload 0 (by omega), h.magic]
  · rw [hload 4 (by omega), hcrc, h.checksum]
  · rw [hload 8 (by omega), h.count_eq]
  · rw [hload 12 (by omega), h.current_eq]
  · rw [hload 16 (by omega)]
    exact h.total_le

/-- The size is in range for the arithmetic on positions. -/
theorem Held.size_lt (h : Held crc size count s a) : size < 2 ^ 31 ∧ 2 ≤ size := by
  have h₁ := h.size_le
  have h₂ := h.size_pos
  have h₃ := h.size_mod
  unfold maxKlogSize at h₁
  omega

/-- The logs that are held are there. -/
theorem Held.stored (h : Held crc size count s a) : Stored size count s a :=
  ⟨h.size_lt.2, h.size_lt.1.trans (by decide), h.header.count_eq, h.header.current_eq, h.current_lt,
    h.klog_eq, h.log⟩

/-- A change of the current log leaves the rest of the buffer as it is. -/
theorem Held.update {s' : State} {a' : Logs} (h : Held crc size count s a)
    (hs : Stored size count s' a') (hcur : a'.current = a.current)
    (hframe : ∀ i, i < s.klog ∨ s.klog + 20 + size ≤ i → s'.mem i = s.mem i) :
    Held crc size count s' a' := by
  refine ⟨h.size_mod, h.size_pos, h.size_le, ?_, hs.current_lt, hs.klog_eq, hs.log⟩
  rw [hcur]
  refine h.header.frame fun i hi => hframe i (.inl ?_)
  rw [h.klog_eq, offset]
  omega

/-- The header once `header_crc32` is written. -/
theorem Header.seal (hmagic : load32 m 0 = klogBufferHeaderMagic) (hcount : load32 m 8 = count)
    (hcurrent : load32 m 12 = current) (htotal : load32 m 16 ≤ maxKlogSize) :
    Header crc (checksumKlogBufferHeader crc m) count current := by
  have hload : ∀ j, j + 4 ≤ 4 ∨ 8 ≤ j → load32 (checksumKlogBufferHeader crc m) j = load32 m j :=
    fun j hj => load32_store32_of_ne (by omega)
  constructor
  · rw [hload 0 (by omega), hmagic]
  · have hcrc : getChecksumKlogBufferHeader crc (checksumKlogBufferHeader crc m) =
        getChecksumKlogBufferHeader crc m := by
      rw [getChecksumKlogBufferHeader, getChecksumKlogBufferHeader, checksumKlogBufferHeader,
        window_congr fun i hi => store32_of_not_mem (by omega)]
    rw [hcrc]
    conv_lhs => rw [checksumKlogBufferHeader]
    rw [load32_store32]
    exact Nat.mod_eq_of_lt (UInt32.toNat_lt _)
  · rw [hload 8 (by omega), hcount]
  · rw [hload 12 (by omega), hcurrent]
  · rw [hload 16 (by omega)]
    exact htotal

theorem Header.setCurrent (h : Header crc m count current) {buffer : ℕ} (hb : buffer < 2 ^ 32) :
    Header crc (checksumKlogBufferHeader crc (store32 m 12 buffer)) count buffer := by
  refine Header.seal ?_ ?_ ?_ ?_
  · rw [load32_store32_of_ne (by omega), h.magic]
  · rw [load32_store32_of_ne (by omega), h.count_eq]
  · rw [load32_store32, Nat.mod_eq_of_lt hb]
  · rw [load32_store32_of_ne (by omega)]
    exact h.total_le

section

variable (h : Held crc size count s a)
include h

/-- **`klog_set_current_buffer`.** -/
theorem Held.klogSetCurrentBuffer {buffer : ℕ} (hb : buffer < count) :
    ∃ s', klogSetCurrentBuffer crc buffer s = some s' ∧
      Held crc size count s' { a with current := buffer } := by
  have hcount : count < 2 ^ 32 := h.header.count_eq ▸ load32_lt s.mem 8
  obtain ⟨s', hset, hs, hmem⟩ := h.stored.klogSetCurrentBuffer crc hb
  refine ⟨s', hset, h.size_mod, h.size_pos, h.size_le, ?_, hb, hs.klog_eq, hs.log⟩
  rw [hmem]
  split_ifs with hsame
  · exact hsame ▸ h.header
  · exact h.header.setCurrent (by omega)

theorem Held.validLogs :
    ∀ n i, n + i ≤ count → validLogs s.mem n (offset size i) = true := by
  intro n
  induction n with
  | zero => exact fun i _ => rfl
  | succ n ih =>
    intro i hi
    have hlog := h.log i (by omega)
    have hvalid : validLog s.mem (offset size i) = true := by
      have hmod := h.size_mod
      simp only [validLog, hlog.magic, hlog.size_eq, hlog.checksum_eq, decide_eq_true_eq]
      exact ⟨trivial, by omega, h.size_le, hlog.head_lt, hlog.tail_lt, fun _ => trivial⟩
    rw [Klog.validLogs, hvalid, hlog.size_eq, ← offset_succ, ih (i + 1) (by omega)]
    rfl

/-- **Recovery** finds the buffer as it is. -/
theorem Held.recover : klogRecover crc (some s.mem) = some s := by
  have hcur := h.current_lt
  have htotal := h.header.total_le
  have hlogs := h.validLogs count 0 (by omega)
  have hset : Klog.klogSetCurrentBuffer crc a.current ⟨s.mem, 20⟩ = some s := by
    rw [Klog.klogSetCurrentBuffer, h.header.count_eq, if_neg (by omega), h.stored.laid.findNthLog hcur.le,
      h.header.current_eq, ← h.klog_eq]
    simp
  rw [offset, Nat.zero_mul, Nat.add_zero] at hlogs
  simp only [klogRecover, h.header.magic, h.header.checksum, h.header.count_eq,
    h.header.current_eq, hlogs, hset]
  rw [if_neg (by simp), if_neg (by simp), if_neg (by omega), if_neg (by omega)]
  simp

theorem Held.intact : Intact crc count s a where
  checksum i hi := by
    have hlog := h.log i hi
    simp only [h.stored.laid.findNthLog hi.le, hlog.size_eq]
    rw [← hlog.checksum, Nat.add_zero]
    exact (Nat.mod_eq_of_lt (load32_lt _ _)).symm
  positions i hi := by
    have hlog := h.log i hi
    simp only [h.stored.laid.findNthLog hi.le, hlog.size_eq]
    exact ⟨hlog.head_lt, hlog.tail_lt⟩
  unread i hi := by
    rw [h.stored.unreadBytes hi, h.stored.laid.findNthLog hi.le, (h.log i hi).size_eq]
  current := ⟨h.header.current_eq, by rw [h.stored.laid.findNthLog h.current_lt.le, h.klog_eq]⟩
  recover := h.recover

theorem Held.klogPutsLen (str : List UInt8) (len : ℕ) :
    Held crc size count (klogPutsLen str len s) (a.update (Log.put (output str len))) := by
  obtain ⟨hs, hframe⟩ := h.stored.klogPutsLen str len
  exact h.update hs rfl hframe

theorem Held.klogPrintf (pieces : List (List UInt8 × ℕ)) :
    Held crc size count (klogPrintf pieces s)
      (a.update (Log.put (pieces.flatMap fun p => output p.1 p.2))) := by
  obtain ⟨hs, -, hframe⟩ := Stored.klogPrintf pieces h.stored
  exact h.update hs rfl hframe

end

/-- **One call** answers from the logs, and the buffer holds them. -/
theorem held_step (w : ℕ) (s : State) (a : Logs) (op : Op) (h : Held crc size count s a)
    (hop : OnCurrent a op) :
    ∃ s' a' o, step crc w s op = some (s', o) ∧ abstractStep w size count a op = some (a', o) ∧
      Held crc size count s' a' := by
  cases op with
  | puts str => exact ⟨_, _, _, rfl, rfl, h.klogPutsLen _ _⟩
  | printf pieces => exact ⟨_, _, _, rfl, rfl, h.klogPrintf pieces⟩
  | read len bufId =>
    have htail := h.stored.ring.tail_lt
    have hpend : (a.log a.current).pending size < size := by
      have := h.size_pos
      unfold Log.pending
      omega
    have hsize := h.size_lt.1
    have htop : load32 s.mem (s.klog + 12) + min len ((a.log a.current).pending size) < 2 ^ 32 := by
      omega
    obtain ⟨s', hread, -, hs, hframe⟩ := h.stored.klogRead hop htop
    exact ⟨s', _, _, by rw [step, hread], rfl, h.update hs rfl hframe⟩
  | setCurrentBuffer buffer =>
    by_cases hb : buffer < count
    · obtain ⟨s', hset, hheld⟩ := h.klogSetCurrentBuffer hb
      exact ⟨s', _, .selected true, by simp only [step, hset], by rw [abstractStep, if_pos hb],
        hheld⟩
    · have hset : Klog.klogSetCurrentBuffer crc buffer s = none := by
        rw [Klog.klogSetCurrentBuffer, h.header.count_eq, if_pos (by omega)]
      exact ⟨s, a, .selected false, by simp only [step, hset],
        by rw [abstractStep, if_neg hb], h⟩

end Buffer

section Create

variable {crc : List UInt8 → UInt32} {w len size count : ℕ}

theorem sizeNeeded_eq (hw : 16 ≤ w) (hcount : count ≤ 1637) :
    sizeNeeded w count = 20 + 24 * count := by
  have hpow : 2 ^ 16 ≤ 2 ^ w := Nat.pow_le_pow_right (by omega) hw
  rw [sizeNeeded, u32_of_lt (by omega), Nat.mod_eq_of_lt (by omega)]
  omega

theorem bufsize_eq (hw : 16 ≤ w) (hlen : len ≤ maxKlogSize) (hfit : 20 + 24 * count ≤ len) :
    bufsize w len count = (len - 20 - 20 * count) / count / 4 * 4 := by
  have hpow : 2 ^ 16 ≤ 2 ^ w := Nat.pow_le_pow_right (by omega) hw
  unfold maxKlogSize at hlen
  have hmod : (len + (2 ^ w - 20) + (2 ^ w - 20 * count % 2 ^ w)) % 2 ^ w =
      len - 20 - 20 * count := by
    rw [Nat.mod_eq_of_lt (show 20 * count < 2 ^ w by omega),
      show len + (2 ^ w - 20) + (2 ^ w - 20 * count) = len - 20 - 20 * count + 2 ^ w * 2 by omega,
      Nat.add_mul_mod_self_left, Nat.mod_eq_of_lt (by omega)]
  rw [bufsize, hmod, u32_of_lt (by omega)]

/-- The logs have room for at least four bytes each, and fit. -/
theorem bufsize_spec (hw : 16 ≤ w) (hlen : len ≤ maxKlogSize) (hcount : count ≠ 0)
    (hfit : 20 + 24 * count ≤ len) :
    bufsize w len count % 4 = 0 ∧ 0 < bufsize w len count ∧ bufsize w len count ≤ maxKlogSize ∧
      offset (bufsize w len count) count ≤ len := by
  rw [bufsize_eq hw hlen hfit]
  have hpos : 0 < count := by omega
  have hfour : 4 ≤ (len - 20 - 20 * count) / count := (Nat.le_div_iff_mul_le hpos).2 (by omega)
  have hmul : count * ((len - 20 - 20 * count) / count) ≤ len - 20 - 20 * count :=
    Nat.mul_div_le _ _
  have hle : (len - 20 - 20 * count) / count ≤ len - 20 - 20 * count := Nat.div_le_self _ _
  generalize (len - 20 - 20 * count) / count = q at *
  have hround : count * (q / 4 * 4) ≤ count * q := Nat.mul_le_mul_left _ (Nat.div_mul_le_self _ _)
  refine ⟨by omega, by omega, by omega, ?_⟩
  rw [offset, Nat.mul_add]
  omega

/-- **`klog_create`** sets up empty logs in a buffer that has room for them. -/
theorem klogCreate_of_fits (crc : List UInt8 → UInt32) (hw : 16 ≤ w) (hlen : len ≤ maxKlogSize)
    (hcount : count ≠ 0) (hfit : 20 + 24 * count ≤ len) (m : ℕ → UInt8) :
    ∃ s, klogCreate crc w (some m) len count = .noError s ∧
      Held crc (bufsize w len count) count s Logs.start := by
  obtain ⟨hmod, hpos, hle, hend⟩ := bufsize_spec hw hlen hcount hfit
  have hmax : maxKlogSize = 32768 := rfl
  have hacc : Accepted w len count := ⟨hcount, by rw [sizeNeeded_eq hw (by omega)]; exact hfit⟩
  generalize hsize : bufsize w len count = size at *
  have hoffset : offset size 0 = 20 := by simp [offset]
  have hsome := (createLogs_isSome len size count 0 (createHeader crc len count m)).2 (.inr hend)
  obtain ⟨m', hm'⟩ := Option.isSome_iff_exists.1 hsome
  obtain ⟨hlogs, hframe⟩ := createLogs_spec hpos (by omega) count 0 _ _ hm'
  have hheader : Header crc m' count 0 := by
    refine Header.frame ?_ fun i hi => hframe i (by omega)
    refine Header.seal ?_ ?_ ?_ ?_
    · rw [load32_store32_of_ne (by omega), load32_store32_of_ne (by omega),
        load32_store32_of_ne (by omega), load32_store32]
      rfl
    · rw [load32_store32_of_ne (by omega), load32_store32_of_ne (by omega), load32_store32,
        Nat.mod_eq_of_lt (by omega)]
    · rw [load32_store32_of_ne (by omega), load32_store32, Nat.zero_mod]
    · rw [load32_store32, Nat.mod_eq_of_lt (by omega)]
      exact hlen
  have hheld : Held crc size count ⟨m', 20⟩ Logs.start :=
    ⟨hmod, hpos, hle, hheader, by simp only [Logs.start]; omega, hoffset.symm,
      fun i hi => hlogs i (by omega) (by omega)⟩
  obtain ⟨s, hset, hs⟩ := hheld.klogSetCurrentBuffer (show 0 < count by omega)
  refine ⟨s, ?_, hs⟩
  rw [hoffset] at hm'
  simp only [klogCreate, hacc, not_true_eq_false, if_false, hsize, hm', hset]

/-- A count whose logs do not fit is not found out, and `klog_create` leaves the buffer. -/
theorem klogCreate_of_not_fits (hw : 16 ≤ w) (hlen : len ≤ maxKlogSize)
    (hacc : Accepted w len count) (hfit : ¬20 + 24 * count ≤ len) (m : ℕ → UInt8) :
    klogCreate crc w (some m) len count = .outOfBounds := by
  have hmax : maxKlogSize = 32768 := rfl
  have hcount : 1637 < count := by
    by_contra h
    have := hacc.2
    rw [sizeNeeded_eq hw (by omega)] at this
    omega
  have hnone : createLogs len (bufsize w len count) count 20 (createHeader crc len count m) =
      none := by
    rw [← Option.not_isSome_iff_eq_none]
    have hoffset : offset (bufsize w len count) 0 = 20 := by simp [offset]
    rw [← hoffset, createLogs_isSome, Nat.add_zero]
    have : count * 20 ≤ count * (20 + bufsize w len count) :=
      Nat.mul_le_mul_left _ (Nat.le_add_right _ _)
    rw [offset]
    omega
  simp only [klogCreate, hacc, not_true_eq_false, if_false, hnone]

/-- **What `klog_create` is for.**  It sets up `count` logs in the buffer, and after every
sequence of calls the answers are those of the abstract logs and the buffer is intact. -/
def Keeps (crc : List UInt8 → UInt32) (w len count : ℕ) (m : ℕ → UInt8) : Prop :=
  ∃ s, klogCreate crc w (some m) len count = .noError s ∧
    ∀ ops, Machine.Along
        (fun a op => (abstractStep w (bufsize w len count) count a op).map Prod.fst)
        OnCurrent Logs.start ops →
      ∃ s' a' answers, Machine.trace (step crc w) s ops = some (s', answers) ∧
        Machine.trace (abstractStep w (bufsize w len count) count) Logs.start ops =
          some (a', answers) ∧ Intact crc count s' a'

/-- **Kernel log integrity and recovery.**  A buffer that `klog_create` accepts keeps its logs
exactly when the size it has to have is at most the size it has. -/
theorem klog_integrity (crc : List UInt8 → UInt32) (w len count : ℕ) (m : ℕ → UInt8) (hw : 16 ≤ w)
    (hlen : len ≤ maxKlogSize) (hacc : Accepted w len count) :
    Keeps crc w len count m ↔ 20 + 24 * count ≤ len := by
  constructor
  · rintro ⟨s, hs, -⟩
    by_contra hfit
    rw [klogCreate_of_not_fits hw hlen hacc hfit] at hs
    cases hs
  · intro hfit
    obtain ⟨s, hs, hheld⟩ := klogCreate_of_fits crc hw hlen hacc.1 hfit m
    refine ⟨s, hs, fun ops hops => ?_⟩
    obtain ⟨s', a', answers, h, h', hheld'⟩ :=
      Machine.trace_simulates (held_step w) ops s Logs.start hheld hops
    exact ⟨s', a', answers, h, h', hheld'.intact⟩

/-- Two logs in 512 bytes. -/
theorem klog_integrity_two :
    Keeps (Cksum.crc32 0) 64 512 2 (fun _ => 0) :=
  (klog_integrity (Cksum.crc32 0) 64 512 2 (fun _ => 0) (by decide) (by decide) (by decide)).2
    (by decide)

/-- **With a `size_t` of 32 bits, `2 ^ 30` logs are accepted in 44 bytes**, of which all but
one lie outside. -/
theorem klog_create_wraps :
    Accepted 32 44 (2 ^ 30) ∧ ¬Keeps (Cksum.crc32 0) 32 44 (2 ^ 30) (fun _ => 0) := by
  have hacc : Accepted 32 44 (2 ^ 30) := by decide
  refine ⟨hacc, fun ⟨s, hs, _⟩ => ?_⟩
  rw [klogCreate_of_not_fits (by decide) (by decide) hacc (by decide)] at hs
  cases hs

end Create

end Klog
end LittleKernel
