/-
# Whether reading one log disturbs another

`klog_read` of `lib/klog/klog.c` takes the number of a log, and is to take the oldest unread
bytes of that log and leave the others.  `namedStep` answers the calls that way.

The code reads the log it is asked for and moves the tail of the current one.  So the call
does what it is for exactly when it reads nothing or reads the current log, and the sum of the
tail and the bytes read is a 32-bit number, which every log below 2 GiB sees to
(`undisturbed_iff`).  `klog_read_apart_iff` says the same of whole runs.
-/

import LittleKernel.Klog.Integrity

namespace LittleKernel
namespace Klog

open Machine Memory Word Bytes

section Spec

/-- The bytes that a read of `bufId` can get. -/
def readable (s : State) (bufId : ℤ) : Option (List UInt8) :=
  (klogGetBuffer bufId s).map fun vec => vec.flatMap fun v => window s.mem v.1 v.2

/-- The data of the log `i`. -/
def contents (s : State) (i : ℕ) : List UInt8 :=
  window s.mem (findNthLog s.mem i + 20) (load32 s.mem (findNthLog s.mem i + 4))

/-- The log that `bufId` names. -/
def named (a : Logs) (bufId : ℤ) : ℕ := if bufId < 0 then a.current else bufId.toNat

/-- What the calls are for: as `abstractStep`, but a read is one of the log it names. -/
def namedStep (w size count : ℕ) (a : Logs) : Op → Option (Logs × Answer)
  | .read len bufId =>
    if (count : ℤ) ≤ bufId then some (a, .bytes none)
    else
      let i := named a bufId
      some ({ a with log := Function.update a.log i ((a.log i).read size len) },
        .bytes (some (((a.log i).unread size).take len)))
  | op => abstractStep w size count a op

/-- The call writes to the data of the log `i`. -/
def Writes (a : Logs) (i : ℕ) : Op → Prop
  | .puts _ | .printf _ => i = a.current
  | _ => False

variable (crc : List UInt8 → UInt32) (w size count : ℕ)

/-- The buffer and what its logs are for, side by side. -/
def next (p : State × Logs) (op : Op) : Option (State × Logs) :=
  (step crc w p.1 op).bind fun q => (namedStep w size count p.2 op).map fun r => (q.1, r.1)

/-- The call answers as it should, every log has the unread bytes it should have, and only the
data that are written change. -/
def Undisturbed (p : State × Logs) (op : Op) : Prop :=
  ∀ s' o, step crc w p.1 op = some (s', o) → ∃ a', namedStep w size count p.2 op = some (a', o) ∧
    (∀ i < count, unreadBytes s' i = some ((a'.log i).unread size)) ∧
    ∀ i < count, ¬Writes p.2 i op → contents s' i = contents p.1 i

/-- A read gets nothing, or it names the current log and the tail and the bytes read add up
to a 32-bit number. -/
def Meets (s : State) : Op → Prop
  | .read len bufId => ∀ l ∈ readable s bufId, min len l.length = 0 ∨
      (bufId < 0 ∨ bufId = load32 s.mem 12) ∧
        load32 s.mem (s.klog + 12) + min len l.length < 2 ^ 32
  | _ => True

instance (s : State) : ∀ op, Decidable (Meets s op)
  | .read _ bufId => inferInstanceAs (Decidable (∀ l ∈ readable s bufId, _))
  | .puts _ | .printf _ | .setCurrentBuffer _ => .isTrue trivial

end Spec

section Calls

variable {crc : List UInt8 → UInt32} {w size count : ℕ} {s s' : State} {a a' : Logs}

theorem Laid.contents (h : Laid size count s.mem) {i : ℕ} (hi : i < count) :
    contents s i = window s.mem (offset size i + 20) size := by
  rw [Klog.contents, h.findNthLog hi.le, h.size_eq i hi]

/-- What does not store into the data of a log leaves its contents. -/
theorem Laid.contents_eq (h : Laid size count s.mem) (h' : Laid size count s'.mem) {i : ℕ}
    (hi : i < count) (hmem : ∀ x, offset size i + 20 ≤ x → x < offset size i + 20 + size →
      s'.mem x = s.mem x) : Klog.contents s' i = Klog.contents s i := by
  rw [h.contents hi, h'.contents hi]
  exact window_congr fun j hj => hmem _ (by omega) (by omega)

/-- The tail of a log is none of the data, and no other log has it. -/
theorem Stored.frame_tail (h : Stored size count s a) {i x : ℕ} (hi : i < count)
    (hx : offset size i ≤ x) (hx' : x < offset size i + 20 + size)
    (hne : i ≠ a.current ∨ x < offset size i + 12 ∨ offset size i + 16 ≤ x) :
    x < s.klog + 12 ∨ s.klog + 12 + 4 ≤ x := by
  rw [h.klog_eq]
  rcases Nat.lt_trichotomy i a.current with hlt | rfl | hlt
  · have := offset_le size hlt
    omega
  · omega
  · have := offset_le size hlt
    omega

section Tail

variable {n : ℕ}

variable (h : Stored size count s a)
include h

/-- The buffer with the tail of the current log moved. -/
theorem Stored.laid_advanceTail (n : ℕ) : Laid size count (advanceTail s.klog n s.mem) := by
  have hk : 20 ≤ s.klog := by rw [h.klog_eq, offset]; omega
  refine ⟨(load32_store32_of_ne (by omega)).trans h.count_eq, fun i hi => ?_⟩
  have hsize := h.size_ge
  refine (load32_congr fun x hx hx' => store32_of_not_mem ?_).trans (h.laid.size_eq i hi)
  exact h.frame_tail hi (by omega) (by omega) (.inr (.inl (by omega)))

theorem Stored.contents_advanceTail {i : ℕ} (hi : i < count) :
    Klog.contents { s with mem := advanceTail s.klog n s.mem } i = Klog.contents s i :=
  h.laid.contents_eq (h.laid_advanceTail n) hi fun x hx hx' =>
    store32_of_not_mem (h.frame_tail hi (by omega) hx' (.inr (.inr (by omega))))

/-- The unread bytes of the other logs are where they were. -/
theorem Stored.unread_advanceTail {i : ℕ} (hi : i < count) (hne : i ≠ a.current) :
    Klog.unreadBytes { s with mem := advanceTail s.klog n s.mem } i = some ((a.log i).unread size) := by
  have hring : Ring (advanceTail s.klog n s.mem) (offset size i) size 0 (a.log i) :=
    (h.log i hi).frame fun x hx hx' => store32_of_not_mem (h.frame_tail hi hx hx' (.inl hne))
  rw [Klog.unreadBytes, Laid.klogGetBuffer (h.laid_advanceTail n) hi, Option.map_some,
    hring.runs_eq h.size_lt]

/-- A sum of 2 ^ 32 or more is cut off, and the tail is set short of where it should be. -/
theorem Stored.unread_wrapped
    (hn : n ≤ (a.log a.current).pending size) (htop : 2 ^ 32 ≤ load32 s.mem (s.klog + 12) + n) :
    ∃ l, Klog.unreadBytes { s with mem := advanceTail s.klog n s.mem } a.current = some l ∧
      l.length ≠ (a.log a.current).pending size - n := by
  have hring := h.ring
  have hh := hring.head_lt
  have ht := hring.tail_lt
  have hsize := h.size_lt
  rw [hring.pending_eq] at hn ⊢
  rw [Klog.unreadBytes, Laid.klogGetBuffer (h.laid_advanceTail n) h.current_lt, ← h.klog_eq]
  refine ⟨_, rfl, ?_⟩
  have htail : load32 (advanceTail s.klog n s.mem) (s.klog + 12) =
      load32 s.mem (s.klog + 12) + n - 2 ^ 32 := by
    have hpos : u32 (load32 s.mem (s.klog + 12) + n) = load32 s.mem (s.klog + 12) + n - 2 ^ 32 := by
      unfold used at hn
      unfold u32
      split_ifs at hn <;> omega
    have hlt : n < size := by
      have := used_lt hh ht
      omega
    rw [advanceTail, load32_store32, hring.size_eq, hpos, wrapped, if_neg (by omega),
      Nat.mod_eq_of_lt (by omega)]
  have hhead : load32 (advanceTail s.klog n s.mem) (s.klog + 8) = load32 s.mem (s.klog + 8) :=
    load32_store32_of_ne (by omega)
  rw [runs, hhead, htail]
  unfold used at hn ⊢
  simp only
  -- the tail was in front of the head, and is behind it now
  split_ifs at hn ⊢ <;> simp <;> omega

end Tail

/-- Output on the current log leaves the data of the others. -/
theorem Stored.contents_output (h : Stored size count s a) (h' : Stored size count s' a')
    (hframe : ∀ x, x < s.klog ∨ s.klog + 20 + size ≤ x → s'.mem x = s.mem x) {i : ℕ}
    (hi : i < count) (hne : i ≠ a.current) : Klog.contents s' i = Klog.contents s i := by
  refine h.laid.contents_eq h'.laid hi fun x hx hx' => hframe x ?_
  rw [h.klog_eq]
  rcases Nat.lt_or_gt_of_ne hne with hlt | hlt
  · have := offset_le size hlt
    omega
  · have := offset_le size hlt
    omega

section Read

variable {len : ℕ} {bufId : ℤ}

variable (h : Stored size count s a)
include h

section

variable (hb : ¬(count : ℤ) ≤ bufId)
include hb

theorem Stored.named_lt : named a bufId < count := by
  have := h.current_lt
  unfold named
  split_ifs <;> omega

/-- The runs that a read of `bufId` gets are those of the log it names. -/
theorem Stored.klogGetBuffer_named :
    klogGetBuffer bufId s = some (runs s.mem (offset size (named a bufId))) := by
  by_cases hneg : bufId < 0
  · rw [h.klogGetBuffer_current (.inl hneg), h.klog_eq, named, if_pos hneg]
  · have hi := h.named_lt hb
    rw [named, if_neg hneg] at hi ⊢
    obtain ⟨i, rfl⟩ := Int.eq_ofNat_of_zero_le (Int.not_lt.1 hneg)
    exact h.laid.klogGetBuffer hi

/-- When a read meets its condition, in the terms of the log it names. -/
theorem Stored.meets_read :
    Meets s (.read len bufId) ↔ min len ((a.log (named a bufId)).pending size) = 0 ∨
      named a bufId = a.current ∧ load32 s.mem (s.klog + 12) +
        min len ((a.log (named a bufId)).pending size) < 2 ^ 32 := by
  have hread : readable s bufId = some ((a.log (named a bufId)).unread size) := by
    rw [readable, h.klogGetBuffer_named hb, Option.map_some,
      (h.log _ (h.named_lt hb)).runs_eq h.size_lt]
  have hcur : (bufId < 0 ∨ bufId = load32 s.mem 12) ↔ named a bufId = a.current := by
    rw [h.current_eq, named]
    split_ifs <;> omega
  simp only [Meets, hread, Option.mem_some_iff, forall_eq', Log.length_unread, hcur]

/-- What the read does to the buffer. -/
theorem Stored.klogRead_named :
    Klog.klogRead len bufId s = (some (((a.log (named a bufId)).unread size).take len),
      if (a.log (named a bufId)).pending size = 0 then s
      else { s with
        mem := advanceTail s.klog (min len ((a.log (named a bufId)).pending size)) s.mem }) :=
  (h.log _ (h.named_lt hb)).klogRead h.size_lt (h.klogGetBuffer_named hb) len

/-- A read that meets its condition. -/
theorem Stored.read
    (hm : Meets s (.read len bufId)) : Stored size count (Klog.klogRead len bufId s).2 { a with
        log := Function.update a.log (named a bufId) ((a.log (named a bufId)).read size len) } := by
  rcases (h.meets_read hb).1 hm with h0 | ⟨hcur, htop⟩
  · rw [Log.read, if_pos h0, Function.update_eq_self, h.klogRead_named hb, h0]
    simp only
    split_ifs
    · exact h
    · -- the tail is stored where it was
      have hzero := h.ring.advanceTail h.size_lt (n := 0) (by
        have := h.ring.tail_lt
        have := h.size_lt
        omega)
      rw [Nat.zero_min, Log.read, if_pos (Nat.zero_min _)] at hzero
      have hk := h.klog_eq
      have hlog : Ring (advanceTail s.klog 0 s.mem) (offset size a.current) size 0
          (a.log a.current) := by rwa [← hk]
      have hframe : ∀ x, x < offset size a.current ∨ offset size a.current + 20 + size ≤ x →
          advanceTail s.klog 0 s.mem x = s.mem x := fun x hx => store32_of_not_mem (by omega)
      have hstored : Stored size count { s with mem := advanceTail s.klog 0 s.mem } _ :=
        h.change rfl hlog hframe
      rwa [Function.update_eq_self] at hstored
  · rw [hcur] at htop ⊢
    have hbuf : bufId < 0 ∨ bufId = a.current := by
      unfold named at hcur
      split_ifs at hcur <;> omega
    obtain ⟨s', hread, -, hs, -⟩ := h.klogRead hbuf htop
    rw [hread]
    exact hs

end

/-- A read leaves all the data. -/
theorem Stored.contents_read {i : ℕ} (hi : i < count) :
    Klog.contents (Klog.klogRead len bufId s).2 i = Klog.contents s i := by
  by_cases hb : (count : ℤ) ≤ bufId
  · rw [Klog.klogRead, klogGetBuffer_eq, if_pos (by rw [h.count_eq]; omega)]
  · rw [h.klogRead_named hb]
    simp only
    split_ifs
    · rfl
    · exact h.contents_advanceTail hi

/-- A read that does not meet its condition leaves a log with the wrong unread bytes. -/
theorem Stored.unread_of_not_meets (hb : ¬(count : ℤ) ≤ bufId)
    (hm : ¬Meets s (.read len bufId)) : Klog.unreadBytes (Klog.klogRead len bufId s).2 (named a bufId) ≠
      some (((a.log (named a bufId)).read size len).unread size) := by
  rw [h.meets_read hb, not_or] at hm
  obtain ⟨h0, hcur⟩ := hm
  rw [h.klogRead_named hb, if_neg (by omega), Log.unread_read]
  intro heq
  by_cases hsame : named a bufId = a.current
  · obtain ⟨l, hl, hne⟩ := h.unread_wrapped (n := min len ((a.log a.current).pending size))
      (Nat.min_le_right ..) (by
        rw [hsame] at hcur
        omega)
    rw [hsame] at heq
    obtain rfl := Option.some.inj (hl.symm.trans heq)
    rw [List.length_drop, Log.length_unread] at hne
    omega
  · have := congrArg (Option.map List.length)
      ((h.unread_advanceTail (h.named_lt hb) hsame).symm.trans heq)
    simp only [Option.map_some, Log.length_unread, List.length_drop, Option.some.injEq] at this
    omega

end Read

/-- **One call** that meets its condition. -/
theorem Stored.step (h : Stored size count s a) (crc : List UInt8 → UInt32) (w : ℕ) {op : Op}
    (hm : Meets s op) : ∃ s' o a', Klog.step crc w s op = some (s', o) ∧ namedStep w size count a op = some (a', o) ∧
      Stored size count s' a' ∧ ∀ i < count, ¬Writes a i op → contents s' i = contents s i := by
  cases op with
  | puts str =>
    obtain ⟨hs, hframe⟩ := h.klogPutsLen str.bytes (2 ^ w - 1)
    exact ⟨_, _, _, rfl, rfl, hs, fun i hi hne => h.contents_output hs hframe hi hne⟩
  | printf pieces =>
    obtain ⟨hs, -, hframe⟩ := Stored.klogPrintf pieces h
    exact ⟨_, _, _, rfl, rfl, hs, fun i hi hne => h.contents_output hs hframe hi hne⟩
  | read len bufId =>
    by_cases hb : (count : ℤ) ≤ bufId
    · have hread : Klog.klogRead len bufId s = (none, s) := by
        rw [Klog.klogRead, klogGetBuffer_eq, if_pos (by rw [h.count_eq]; omega)]
      exact ⟨s, .bytes none, a, by rw [Klog.step, hread], by rw [namedStep, if_pos hb], h,
        fun _ _ _ => rfl⟩
    · refine ⟨(Klog.klogRead len bufId s).2, .bytes (Klog.klogRead len bufId s).1, _, rfl, ?_,
        h.read hb hm, fun i hi _ => h.contents_read hi⟩
      rw [namedStep, if_neg hb, h.klogRead_named hb]
  | setCurrentBuffer buffer =>
    by_cases hb : buffer < count
    · obtain ⟨s', hset, hs, hmem⟩ := h.klogSetCurrentBuffer crc hb
      refine ⟨s', .selected true, { a with current := buffer }, ?_, ?_, hs, fun i hi _ => ?_⟩
      · simp only [Klog.step, hset]
      · rw [namedStep, abstractStep, if_pos hb]
        intro _ _ h
        cases h
      · refine h.laid.contents_eq hs.laid hi fun x hx _ => ?_
        have hx : 20 ≤ x := by rw [offset] at hx; omega
        rw [hmem]
        split_ifs
        · rfl
        · exact (store32_of_not_mem (by omega)).trans (store32_of_not_mem (by omega))
    · refine ⟨s, .selected false, a, ?_, ?_, h, fun _ _ _ => rfl⟩
      · have hset : Klog.klogSetCurrentBuffer crc buffer s = none := by
          rw [Klog.klogSetCurrentBuffer, h.count_eq, if_pos (by omega)]
        simp only [Klog.step, hset]
      · rw [namedStep, abstractStep, if_neg hb]
        intro _ _ h
        cases h

/-- **One call** does what it is for exactly when it meets its condition. -/
theorem undisturbed_iff (h : Stored size count s a) (op : Op) :
    Undisturbed crc w size count (s, a) op ↔ Meets s op := by
  constructor
  · intro hu
    by_contra hm
    cases op with
    | read len bufId =>
      by_cases hb : (count : ℤ) ≤ bufId
      · refine hm fun l hl => absurd hl ?_
        rw [readable, klogGetBuffer_eq, if_pos (by rw [h.count_eq]; omega)]
        exact Option.not_mem_none l
      · obtain ⟨a', ha', hunread, -⟩ := hu _ _ rfl
        rw [namedStep, if_neg hb] at ha'
        obtain ⟨rfl, -⟩ := Prod.mk.inj (Option.some.inj ha')
        have hlog := hunread _ (h.named_lt hb)
        simp only [Function.update_self] at hlog
        exact h.unread_of_not_meets hb hm hlog
    | puts => exact hm trivial
    | printf => exact hm trivial
    | setCurrentBuffer => exact hm trivial
  · intro hm s' o hs
    obtain ⟨s₁, o₁, a', hs₁, ha', hstored, hcontents⟩ := h.step crc w hm
    obtain ⟨rfl, rfl⟩ := Prod.mk.inj (Option.some.inj (hs₁.symm.trans hs))
    exact ⟨a', ha', fun i hi => hstored.unreadBytes hi, hcontents⟩

/-- The invariant of the runs whose steps meet their condition. -/
theorem Stored.next (h : Stored size count s a) {op : Op} (hm : Meets s op) {p : State × Logs}
    (hn : Klog.next crc w size count (s, a) op = some p) : Stored size count p.1 p.2 := by
  obtain ⟨s', o, a', hs, ha, hstored, -⟩ := h.step crc w hm
  simp only [Klog.next, hs, ha, Option.bind_some, Option.map_some, Option.some.injEq] at hn
  exact hn ▸ hstored

/-- **`klog_create`** leaves empty logs, of whatever size they are. -/
theorem stored_of_klogCreate {len : ℕ} {m : ℕ → UInt8} (hcount : count < 2 ^ 32)
    (hsize : bufsize w len count ≠ 0) (hs : klogCreate crc w (some m) len count = .noError s) :
    Stored (bufsize w len count) count s Logs.start := by
  have hmul : 4 ≤ bufsize w len count := by
    unfold bufsize at hsize ⊢
    omega
  have hlt : bufsize w len count < 2 ^ 32 := by
    unfold bufsize
    refine (Nat.div_mul_le_self _ _).trans_lt ((Nat.div_le_self _ _).trans_lt ?_)
    exact u32_lt _
  rw [klogCreate] at hs
  split_ifs at hs with hacc
  generalize bufsize w len count = size at *
  have hoffset : offset size 0 = 20 := by simp [offset]
  cases hm' : createLogs len size count 20 (createHeader crc len count m) with
  | none => simp only [hm'] at hs; cases hs
  | some m' =>
    simp only [hm'] at hs
    obtain ⟨hlogs, hframe⟩ := createLogs_spec (by omega) hlt count 0 _ _ (hoffset ▸ hm')
    have hpos : 0 < count := Nat.pos_of_ne_zero hacc.1
    have hload : ∀ j, j + 4 ≤ 20 → load32 m' j = load32 (createHeader crc len count m) j :=
      fun j hj => load32_congr fun x _ hx => hframe x (by omega)
    have hcur : load32 m' 12 = 0 := by
      rw [hload 12 (by omega), createHeader, checksumKlogBufferHeader,
        load32_store32_of_ne (by omega), load32_store32_of_ne (by omega), load32_store32,
        Nat.zero_mod]
    have hnum : load32 m' 8 = count := by
      rw [hload 8 (by omega), createHeader, checksumKlogBufferHeader,
        load32_store32_of_ne (by omega), load32_store32_of_ne (by omega),
        load32_store32_of_ne (by omega), load32_store32, Nat.mod_eq_of_lt hcount]
    have hstored : Stored size count ⟨m', 20⟩ Logs.start :=
      ⟨by omega, hlt, hnum, hcur, hpos, hoffset.symm, fun i hi => hlogs i (by omega) (by omega)⟩
    obtain ⟨s', hset, hs', -⟩ := hstored.klogSetCurrentBuffer crc hpos
    simp only [hset, Created.noError.injEq] at hs
    exact hs ▸ hs'

/-- **Reading one log leaves the others.**  In a run of calls on the logs that `klog_create`
set up, every call does what it is for exactly when every read gets nothing, or is one of the
current log and leaves its tail below 2 ^ 32. -/
theorem klog_read_apart_iff (crc : List UInt8 → UInt32) (w len count : ℕ) (m : ℕ → UInt8) (s : State)
    (hs : klogCreate crc w (some m) len count = .noError s) (hcount : count < 2 ^ 32)
    (hsize : bufsize w len count ≠ 0) (ops : List Op) :
    Along (next crc w (bufsize w len count) count)
        (Undisturbed crc w (bufsize w len count) count) (s, Logs.start) ops ↔
      Along (next crc w (bufsize w len count) count) (fun p op => Meets p.1 op)
        (s, Logs.start) ops := by
  have hstart := stored_of_klogCreate hcount hsize hs
  constructor
  · intro hu
    have hinv : Throughout _ (fun p : State × Logs => Stored (bufsize w len count) count p.1 p.2) _ ops :=
      hu.throughout (fun p op p' h hop hn => h.next ((undisturbed_iff h op).1 hop) hn) hstart
    exact (hinv.along hu).imp fun p op h => (undisturbed_iff h.1 op).1 h.2
  · intro hm
    have hinv : Throughout _ (fun p : State × Logs => Stored (bufsize w len count) count p.1 p.2) _ ops :=
      hm.throughout (fun p op p' h hop hn => h.next hop hn) hstart
    exact (hinv.along hm).imp fun p op h => (undisturbed_iff h.1 op).2 h.2

/-- A read of the current log meets its condition where the logs are below 2 GiB. -/
theorem Stored.meets_current (h : Stored size count s a) (hs : size < 2 ^ 31) (len : ℕ) {bufId : ℤ}
    (hb : bufId < 0 ∨ bufId = a.current) : Meets s (.read len bufId) := by
  have hcur : named a bufId = a.current := by
    unfold named
    split_ifs <;> omega
  have hlt := h.current_lt
  have htail := h.ring.tail_lt
  have hpend : (a.log a.current).pending size < size := by
    have := h.size_ge
    unfold Log.pending
    omega
  rw [h.meets_read (by omega), hcur]
  exact .inr ⟨rfl, by omega⟩

/-- Two logs of 32 bytes. -/
theorem klogCreate_two : ∃ s, klogCreate (fun _ => 0) 64 (some fun _ => 0) 128 2 = .noError s ∧
    Stored 32 2 s Logs.start := by
  obtain ⟨s, hs, hheld⟩ := klogCreate_of_fits (fun _ => 0) (show 16 ≤ 64 by decide)
    (show 128 ≤ maxKlogSize by decide) (show 2 ≠ 0 by decide) (show 20 + 24 * 2 ≤ 128 by decide)
    fun _ => 0
  exact ⟨s, hs, hheld.stored⟩

/-- A line on each of the two logs, each of them read while it is the current one. -/
theorem klog_read_apart_iff_two : ∃ s,
    klogCreate (fun _ => 0) 64 (some fun _ => 0) 128 2 = .noError s ∧
      Along (next (fun _ => 0) 64 32 2) (Undisturbed (fun _ => 0) 64 32 2) (s, Logs.start)
        [.printf [([104, 105], 2)], .read 1 (-1), .setCurrentBuffer 1, .printf [([111, 107], 2)],
          .read 4 (-1)] := by
  obtain ⟨s, hs, h₀⟩ := klogCreate_two
  refine ⟨s, hs, (klog_read_apart_iff _ 64 128 2 _ s hs (by decide) (by decide) _).2 ?_⟩
  refine ⟨trivial, fun p hp => ?_⟩
  have h₁ : Stored 32 2 p.1 p.2 := h₀.next (show Meets s (.printf _) from trivial) hp
  have hread : Meets p.1 (.read 1 (-1)) := h₁.meets_current (by decide) 1 (.inl (by decide))
  refine ⟨hread, fun q hq => ⟨trivial, fun r hr => ⟨trivial, fun t ht => ⟨?_, fun _ _ => trivial⟩⟩⟩⟩
  have h₂ : Stored 32 2 q.1 q.2 := h₁.next hread hq
  have h₃ : Stored 32 2 r.1 r.2 :=
    h₂.next (show Meets q.1 (.setCurrentBuffer 1) from trivial) hr
  have h₄ : Stored 32 2 t.1 t.2 :=
    h₃.next (show Meets r.1 (.printf _) from trivial) ht
  exact h₄.meets_current (by decide) 4 (.inl (by decide))

/-- A line on the first log that is read when the second one is current. -/
theorem not_klog_read_apart : ¬∀ s,
    klogCreate (fun _ => 0) 64 (some fun _ => 0) 128 2 = .noError s → ∀ ops,
      Along (next (fun _ => 0) 64 32 2) (Undisturbed (fun _ => 0) 64 32 2) (s, Logs.start) ops := by
  intro h
  obtain ⟨s, hs, hstored⟩ := klogCreate_two
  obtain ⟨-, h₁⟩ := h s hs [.printf [([104, 105], 2)], .setCurrentBuffer 1, .read 4 0]
  obtain ⟨-, h₂⟩ := h₁ _ rfl
  obtain ⟨hput, -⟩ := Stored.klogPrintf [([104, 105], 2)] hstored
  obtain ⟨s', hset, hs', -⟩ := hput.klogSetCurrentBuffer (fun _ => 0) (show 1 < 2 by decide)
  obtain ⟨h₃, -⟩ := h₂ (s', _) (by
    simp only [next, step, hset, Option.bind_some]
    rfl)
  have h₄ := (hs'.meets_read (by decide)).1 ((undisturbed_iff hs' (.read 4 0)).1 h₃)
  rcases h₄ with h₄ | ⟨h₄, -⟩ <;> exact absurd h₄ (by decide)

end Calls

end Klog
end LittleKernel
