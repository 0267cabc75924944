/-
# Ports deliver in order and lose nothing

One write port with its readers, under any sequence of `port_write`,
`port_open`, non-blocking `port_read` and `port_close` of read ports.

The packets in a circular buffer are a list (`PortBuf.content`) to which
`buf_write` appends and from which `buf_read` takes the first, wherever the
positions have wrapped to.  There is one buffer per reader, or one at the write
port when it has none, and it is handed over whole (`OnePort`).

`Ledger` records what a client sees: the packets of the writes that returned
`NO_ERROR` and the packets read, and for each reader the packets due to it, those
it took over when it was opened and those of each write that fitted in its free
slots.  `port_delivery` says that for a unicast port what was written is what was
read followed by what is still there to be read, and that every reader of any
port has got a prefix of its due and can read the rest.  A write is due to the
readers it fits whatever it returns, so a broadcast that one reader has no room
for still reaches the others.
-/

import LittleKernel.Kernel.Port.Basic

namespace LittleKernel
namespace Port

open Machine Function

variable {α : Type}

/-! ### The circular buffer as a list -/

/-- The `n` slots from `h` on, around the end. -/
def slots (N : ℕ) (f : ℕ → α) (h n : ℕ) : List α :=
  (List.range n).map fun i => f ((h + i) % N)

theorem add_mod_ne {N h i n : ℕ} (hi : i < n) (hn : n < N) : (h + i) % N ≠ (h + n) % N := by
  intro he
  have hd : N ∣ (h + n) - (h + i) :=
    Nat.dvd_of_mod_eq_zero (Nat.sub_mod_eq_zero_of_mod_eq he.symm)
  have := Nat.le_of_dvd (by omega) hd
  omega

/-- A packet stored in the slot behind the last one. -/
theorem slots_snoc {N n : ℕ} (hn : n < N) (f : ℕ → α) (h : ℕ) (p : α) :
    slots N (update f ((h + n) % N) p) h (n + 1) = slots N f h n ++ [p] := by
  rw [slots, List.range_succ, List.map_append, slots]
  congr 1
  · refine List.map_congr_left fun i hi => ?_
    rw [update_of_ne (add_mod_ne (List.mem_range.1 hi) hn)]
  · simp

theorem slots_cons (N : ℕ) (f : ℕ → α) (h n : ℕ) :
    slots N f h (n + 1) = f (h % N) :: slots N f ((h + 1) % N) n := by
  rw [slots, List.range_succ_eq_map, List.map_cons, List.map_map, slots, Nat.add_zero]
  congr 1
  refine List.map_congr_left fun i _ => ?_
  simp only [Function.comp, Nat.mod_add_mod]
  congr 2
  omega

theorem slots_bufStore {log2 : ℕ} (h : ℕ) {n : ℕ} (ps : List α) (f : ℕ → α)
    (hn : n + ps.length ≤ 2 ^ log2) :
    slots (2 ^ log2) (bufStore log2 ps f ((h + n) % 2 ^ log2)).1 h (n + ps.length)
      = slots (2 ^ log2) f h n ++ ps := by
  induction ps generalizing f n with
  | nil => simp [bufStore]
  | cons p ps ih =>
    rw [List.length_cons] at hn
    have ih' := @ih (n + 1) (update f ((h + n) % 2 ^ log2) p) (by omega)
    rw [bufStore, modpow2_eq, Nat.mod_add_mod, List.length_cons,
      show n + (ps.length + 1) = n + 1 + ps.length by omega, Nat.add_assoc h n 1, ih',
      slots_snoc (by omega)]
    simp

namespace PortBuf

/-- The unread packets, the oldest first. -/
def content (b : PortBuf α) : List α := slots (2 ^ b.log2) b.packet b.head (2 ^ b.log2 - b.avail)

@[simp] theorem content_makeBuf [Inhabited α] (big : Bool) :
    (makeBuf big : PortBuf α).content = [] := by
  cases big <;> rfl

theorem length_content (b : PortBuf α) : b.content.length = 2 ^ b.log2 - b.avail := by
  simp [content, slots]

theorem bufIsEmpty_iff (b : PortBuf α) : bufIsEmpty b ↔ b.content = [] := by
  have := b.avail_le
  rw [← List.length_eq_zero_iff, length_content, bufIsEmpty]
  omega

end PortBuf

variable {b : PortBuf α}

/-- `buf_write` is all or nothing: too many packets are refused. -/
theorem bufWrite_eq_none {ps : List α} :
    bufWrite b ps = none ↔ b.avail < ps.length := by
  simp [bufWrite]

theorem bufWrite_content {b b' : PortBuf α} {ps : List α} (h : bufWrite b ps = some b') :
    b'.content = b.content ++ ps := by
  unfold bufWrite at h
  split at h
  · exact absurd h (by simp)
  · rename_i hlen
    cases h
    have hle := b.avail_le
    have hstore := slots_bufStore b.head ps b.packet
      (show (2 ^ b.log2 - b.avail) + ps.length ≤ 2 ^ b.log2 by omega)
    rw [← b.tail_eq] at hstore
    rw [PortBuf.content, PortBuf.content, ← hstore]
    simp only
    congr 1
    omega

theorem bufRead_eq_none : bufRead b = none ↔ b.content = [] := by
  simp [bufRead, b.bufIsEmpty_iff]

theorem bufRead_content {b b' : PortBuf α} {p : α} (h : bufRead b = some (p, b')) :
    b.content = p :: b'.content := by
  unfold bufRead at h
  split at h
  · exact absurd h (by simp)
  · rename_i hne
    cases h
    have hlt := lt_of_le_of_ne b.avail_le hne
    rw [PortBuf.content, PortBuf.content]
    simp only
    rw [show 2 ^ b.log2 - b.avail = 2 ^ b.log2 - (b.avail + 1) + 1 by omega, slots_cons,
      modpow2_eq, Nat.mod_eq_of_lt b.head_lt]

/-! ### What a client sees -/

/-- The packets at a write port without readers. -/
def WritePort.waiting (wp : WritePort α) : List α := wp.buf.elim [] PortBuf.content

/-- The packets a reader has not read. -/
def Ports.unread (s : Ports α) (r : ℕ) : List α :=
  match s.heap r with
  | some (.readPort rp) => rp.buf.content
  | _ => []

/-- The packets of the port at `w` that nobody has read. -/
def Ports.pending (s : Ports α) (w : ℕ) : List α :=
  match s.heap w with
  | some (.writePort wp) => wp.waiting ++ wp.rpList.flatMap s.unread
  | _ => []

/-- The packets of the writes that returned `NO_ERROR`, the packets read, and for
each reader the packets due to it and those it has read. -/
structure Ledger (α : Type) where
  written : List α
  taken : List α
  due : ℕ → List α
  got : ℕ → List α

def Ledger.empty : Ledger α := ⟨[], [], fun _ => [], fun _ => []⟩

/-- The count of the write fits in the free slots of the reader `r` of `w`. -/
def Ports.fits (s : Ports α) (w r count : ℕ) : Bool :=
  match s.heap r with
  | some (.readPort rp) => rp.wport = some w ∧ count ≤ rp.buf.avail
  | _ => false

/-- A write is due to each reader it fits, whatever it returns. -/
def Ledger.credit (s : Ports α) (w : ℕ) (pk : List α) (L : Ledger α) : Ledger α :=
  { L with due := fun r => if s.fits w r pk.length then L.due r ++ pk else L.due r }

/-- The entry of a call that returned. -/
def Ledger.record (s : Ports α) (c : Call α) (res : Result α) (L : Ledger α) :
    Ledger α :=
  match c, res with
  | .write w pk, .ret .noError => { L.credit s w pk with written := L.written ++ pk }
  | .write w pk, _ => L.credit s w pk
  | .openPort name _ _ _, .port _ r =>
    { L with
      due := update L.due r ((findPort s name).elim [] fun p => p.2.waiting)
      got := update L.got r [] }
  | .read h _, .packet _ p =>
    { L with
      taken := L.taken ++ [p]
      got := update L.got h (L.got h ++ [p]) }
  | _, _ => L

theorem Ledger.record_write (L : Ledger α) (s : Ports α) (w : ℕ) (pk : List α) (st : PortStatus) :
    (L.record s (.write w pk) (.ret st)).due = (L.credit s w pk).due ∧
      (L.record s (.write w pk) (.ret st)).got = L.got := by
  cases st <;> exact ⟨rfl, rfl⟩

/-- A step and its entry. -/
def ledgerStep [Inhabited α] (p : Ports α × Ledger α) (c : Call α) :
    Option (Ports α × Ledger α) :=
  (portStep p.1 c).map fun q => (q.1, p.2.record p.1 c q.2)

/-- The calls on the port at `w`: writes to it, opens, reads that do not block, and
closes of its readers. -/
def Call.OnPort (w : ℕ) : Call α → Prop
  | .write w' _ => w' = w
  | .openPort .. => True
  | .read _ t => t.timeout = 0
  | .close h => h ≠ w
  | _ => False

instance (w : ℕ) : ∀ c : Call α, Decidable (c.OnPort w)
  | .write w' _ => inferInstanceAs (Decidable (w' = w))
  | .openPort .. => .isTrue trivial
  | .read _ t => inferInstanceAs (Decidable (t.timeout = 0))
  | .close h => inferInstanceAs (Decidable (h ≠ w))
  | .create .. | .group .. | .groupAdd .. | .groupRemove .. | .resume .. | .timer ..
  | .destroy .. => .isFalse id

/-! ### The invariant -/

/-- The open write port `wp` at `w` and its readers are all there is; it has the
buffer itself exactly when it has no reader. -/
structure OnePort (w : ℕ) (s : Ports α) (wp : WritePort α) : Prop where
  addr : w ≠ 0
  null : s.heap 0 = none
  heap_w : s.heap w = some (.writePort wp)
  isOpen : wp.closed = false
  others : ∀ h o, s.heap h = some o → h ≠ w → h ∈ wp.rpList
  readers : ∀ r ∈ wp.rpList,
    ∃ rp, s.heap r = some (.readPort rp) ∧ rp.wport = some w ∧ rp.gport = none
  nodup : wp.rpList.Nodup
  buf_none : wp.buf = none ↔ wp.rpList ≠ []
  ports : s.writePortList = [w]
  one : wp.mode &&& portModeUnicast ≠ 0 → wp.rpList.length ≤ 1
  quiet : s.reading = []
  unlocked : s.threadLock = false

/-- The ledger balances. -/
structure Balanced (s : Ports α) (wp : WritePort α) (L : Ledger α) : Prop where
  due : ∀ r ∈ wp.rpList, L.got r ++ s.unread r = L.due r
  got_due : ∀ r, L.got r <+: L.due r
  unicast : wp.mode &&& portModeUnicast ≠ 0 →
    L.written = L.taken ++ (wp.waiting ++ wp.rpList.flatMap s.unread)

variable {w : ℕ} {s s' : Ports α} {wp : WritePort α} {L : Ledger α}

variable {rp : ReadPort α} {r : ℕ}

theorem Ports.unread_of_heap (hr : s.heap r = some (.readPort rp)) :
    s.unread r = rp.buf.content := by
  simp [Ports.unread, hr]

namespace OnePort

theorem fits_iff {r n : ℕ} {rp : ReadPort α} (hr : s.heap r = some (.readPort rp))
    (hw : rp.wport = some w) : s.fits w r n ↔ n ≤ rp.buf.avail := by
  simp [Ports.fits, hr, hw]

variable (h : OnePort w s wp)
include h

theorem not_mem : w ∉ wp.rpList := fun hmem => by
  obtain ⟨rp, hr, -⟩ := h.readers w hmem
  exact absurd (hr.symm.trans h.heap_w) (by simp)

theorem zero_not_mem : 0 ∉ wp.rpList := fun hmem => by
  obtain ⟨rp, hr, -⟩ := h.readers 0 hmem
  exact absurd (hr.symm.trans h.null) (by simp)

theorem find (name : List Char) : findPort s name = if wp.name = name then some (w, wp) else none := by
  simp only [findPort, h.ports, List.findSome?_cons, h.heap_w, List.findSome?_nil]
  split <;> simp_all

/-- A live read port is one of the readers. -/
theorem mem_of_heap {r : ℕ} {rp : ReadPort α}
    (hr : s.heap r = some (.readPort rp)) : r ∈ wp.rpList := by
  refine h.others r _ hr ?_
  rintro rfl
  exact absurd (hr.symm.trans h.heap_w) (by simp)

/-- A reader that a write fits is one of the port's. -/
theorem mem_of_fits {r n : ℕ} (hf : s.fits w r n) : r ∈ wp.rpList := by
  cases hr : s.heap r with
  | none => simp [Ports.fits, hr] at hf
  | some o =>
    cases o with
    | readPort rp => exact h.mem_of_heap hr
    | writePort _ => simp [Ports.fits, hr] at hf
    | portGroup _ => simp [Ports.fits, hr] at hf

/-- A port without readers credits nobody. -/
theorem credit_eq_self (hnil : wp.rpList = []) (pk : List α) : L.credit s w pk = L := by
  have hnofit : ∀ r, s.fits w r pk.length = false := fun r => by
    by_contra hfit
    simpa [hnil] using h.mem_of_fits (by simpa using hfit)
  simp [Ledger.credit, hnofit]

/-- A unicast port has at most one reader. -/
theorem cases_unicast (hm : wp.mode &&& portModeUnicast ≠ 0) :
    wp.rpList = [] ∨ ∃ r, wp.rpList = [r] := by
  have := h.one hm
  match hl : wp.rpList with
  | [] => exact .inl rfl
  | [r] => exact .inr ⟨r, rfl⟩
  | _ :: _ :: _ => simp [hl] at this

end OnePort

/-! ### Writing -/

/-- What a write does to the buffer of a reader. -/
def ReadPort.push (rp : ReadPort α) (pk : List α) : ReadPort α :=
  match bufWrite rp.buf pk with
  | some b => { rp with buf := b }
  | none => rp

theorem ReadPort.content_push (rp : ReadPort α) (pk : List α) :
    (rp.push pk).buf.content
      = if pk.length ≤ rp.buf.avail then rp.buf.content ++ pk else rp.buf.content := by
  cases hb : bufWrite rp.buf pk with
  | none =>
    have := bufWrite_eq_none.1 hb
    simp [push, hb, show ¬ pk.length ≤ rp.buf.avail by omega]
  | some b =>
    have hlen : pk.length ≤ rp.buf.avail := by
      by_contra hlt
      simp [bufWrite_eq_none.2 (not_le.1 hlt)] at hb
    simp [push, hb, hlen, bufWrite_content hb]

@[simp] theorem ReadPort.push_wport (rp : ReadPort α) (pk : List α) :
    (rp.push pk).wport = rp.wport := by
  unfold push
  split <;> rfl

@[simp] theorem ReadPort.push_gport (rp : ReadPort α) (pk : List α) :
    (rp.push pk).gport = rp.gport := by
  unfold push
  split <;> rfl

/-- The turn of the loop for a reader that is in no group. -/
theorem writeReader_eq (hr : s.heap r = some (.readPort rp)) (hg : rp.gport = none) (pk : List α) :
    ∃ s', writeReader s r pk = some (s', decide (pk.length ≤ rp.buf.avail)) ∧
      s'.heap = update s.heap r (some (.readPort (rp.push pk))) ∧
      s'.writePortList = s.writePortList ∧ s'.reading = s.reading ∧
      s'.threadLock = s.threadLock := by
  cases hb : bufWrite rp.buf pk with
  | none =>
    have hlt := bufWrite_eq_none.1 hb
    refine ⟨s, ?_, ?_, rfl, rfl, rfl⟩
    · simp [writeReader, hr, hb, hlt]
    · rw [ReadPort.push, hb, ← hr, update_eq_self]
  | some b =>
    have hlen : pk.length ≤ rp.buf.avail := by
      by_contra hlt
      simp [bufWrite_eq_none.2 (not_le.1 hlt)] at hb
    refine ⟨(waitQueueWakeOne (s.set r (.readPort { rp with buf := b })) r .noError).1, ?_,
      ?_, by simp [Ports.set], ?_, by simp [Ports.set]⟩
    · simp [writeReader, hr, hb, hg, wakeReader, hlen]
    · simp [Ports.set, ReadPort.push, hb]
    · unfold waitQueueWakeOne
      split <;> rfl

/-- The loop reaches every reader, whether or not the packets fitted before. -/
theorem writeLoop_eq {rs : List ℕ} (pk : List α) (st : PortStatus) (hnd : rs.Nodup)
    (hrs : ∀ r ∈ rs, ∃ rp, s.heap r = some (.readPort rp) ∧ rp.wport = some w ∧ rp.gport = none) :
    ∃ s', writeLoop s pk st rs
        = some (s', if ∀ r ∈ rs, s.fits w r pk.length then st else .partialWrite) ∧
      (∀ h, h ∉ rs → s'.heap h = s.heap h) ∧
      (∀ r ∈ rs, ∀ rp, s.heap r = some (.readPort rp) →
        s'.heap r = some (.readPort (rp.push pk))) ∧
      s'.writePortList = s.writePortList ∧ s'.reading = s.reading ∧
      s'.threadLock = s.threadLock := by
  induction rs generalizing s st with
  | nil => exact ⟨s, by simp [writeLoop], fun _ _ => rfl, fun r hr => absurd hr (by simp), rfl,
      rfl, rfl⟩
  | cons r rs ih =>
    obtain ⟨hrn, hnd⟩ := List.nodup_cons.1 hnd
    obtain ⟨rp, hr, hwp, hg⟩ := hrs r List.mem_cons_self
    obtain ⟨s₁, h₁, hheap, hports, hread, hlock⟩ := writeReader_eq hr hg pk
    have hsame : ∀ q, q ∈ rs → s₁.heap q = s.heap q := fun q hq => by
      have hqr : q ≠ r := fun hqr => hrn (hqr ▸ hq)
      rw [hheap, update_of_ne hqr]
    obtain ⟨s₂, h₂, hout, hin, hports₂, hread₂, hlock₂⟩ := ih
      (if pk.length ≤ rp.buf.avail then st else .partialWrite) hnd fun q hq => by
        rw [hsame q hq]
        exact hrs q (List.mem_cons_of_mem _ hq)
    refine ⟨s₂, ?_, fun q hq => ?_, fun q hq rq hrq => ?_, hports₂.trans hports,
      hread₂.trans hread, hlock₂.trans hlock⟩
    · have hfits : ∀ q ∈ rs, s₁.fits w q pk.length = s.fits w q pk.length := fun q hq => by
        simp [Ports.fits, hsame q hq]
      have hall : (∀ q ∈ rs, s₁.fits w q pk.length) ↔ ∀ q ∈ rs, s.fits w q pk.length :=
        forall₂_congr fun q hq => by rw [hfits q hq]
      simp only [writeLoop, h₁, Option.bind_some, decide_eq_true_eq, h₂, hall,
        List.forall_mem_cons, OnePort.fits_iff hr hwp]
      by_cases hlen : pk.length ≤ rp.buf.avail
      · simp [hlen]
      · simp [hlen]
    · have hqr : q ≠ r := fun hqr => hq (hqr ▸ List.mem_cons_self)
      rw [hout q fun hm => hq (List.mem_cons_of_mem _ hm), hheap, update_of_ne hqr]
    · rcases eq_or_ne q r with rfl | hqr
      · obtain rfl : rp = rq := by simpa using hr.symm.trans hrq
        rw [hout q hrn, hheap, update_self]
      · have hqs : q ∈ rs := by simpa [hqr] using hq
        exact hin q hqs rq (by rw [hsame q hqs, hrq])

/-! ### The steps -/

section Steps

variable {res : Result α} (h : OnePort w s wp) (hb : Balanced s wp L)
include h hb

/-- A write without readers goes to the buffer of the port. -/
theorem OnePort.write_own {b b' : PortBuf α}
    (hbuf : wp.buf = some b) {pk : List α} (hw : bufWrite b pk = some b') :
    OnePort w (s.set w (.writePort { wp with buf := some b' })) { wp with buf := some b' } ∧
      Balanced (s.set w (.writePort { wp with buf := some b' })) { wp with buf := some b' }
        (L.record s (.write w pk) (.ret .noError)) := by
  have hnil : wp.rpList = [] := by
    by_contra hne
    simp [h.buf_none.2 hne] at hbuf
  refine ⟨⟨h.addr, by simpa [Ports.set, h.addr.symm] using h.null, by simp [Ports.set], h.isOpen,
    fun q o hq hqw => ?_, fun r hr => ?_, h.nodup, by simp [hnil], h.ports, h.one, h.quiet,
    h.unlocked⟩, ⟨fun r hr => ?_, fun r => ?_, fun hm => ?_⟩⟩
  · exact h.others q o (by simpa [Ports.set, hqw] using hq) hqw
  · simp [hnil] at hr
  · simp [hnil] at hr
  · simpa [Ledger.record, h.credit_eq_self hnil] using hb.got_due r
  · have hu := hb.unicast hm
    simp only [hnil, List.flatMap_nil, List.append_nil, WritePort.waiting, hbuf,
      Option.elim_some] at hu ⊢
    simp [Ledger.record, h.credit_eq_self hnil, hu, bufWrite_content hw]

/-- A write to the readers goes to each one it fits. -/
theorem OnePort.write_readers (hbuf : wp.buf = none)
    {pk : List α} (hout : ∀ q, q ∉ wp.rpList → s'.heap q = s.heap q)
    (hin : ∀ r ∈ wp.rpList, ∀ rp, s.heap r = some (.readPort rp) →
      s'.heap r = some (.readPort (rp.push pk)))
    (hports : s'.writePortList = s.writePortList) (hread : s'.reading = s.reading)
    (hlock : s'.threadLock = s.threadLock) :
    OnePort w s' wp ∧ Balanced s' wp (L.record s (.write w pk)
      (.ret (if ∀ r ∈ wp.rpList, s.fits w r pk.length then .noError else .partialWrite))) := by
  have hunread : ∀ r ∈ wp.rpList, s'.unread r
      = if s.fits w r pk.length then s.unread r ++ pk else s.unread r := fun r hr => by
    obtain ⟨rp, hrp, hwp, -⟩ := h.readers r hr
    rw [Ports.unread_of_heap (hin r hr rp hrp), Ports.unread_of_heap hrp, ReadPort.content_push]
    simp only [OnePort.fits_iff hrp hwp]
  obtain ⟨hd, hg⟩ := L.record_write s w pk (if ∀ r ∈ wp.rpList, s.fits w r pk.length
    then .noError else .partialWrite)
  refine ⟨⟨h.addr, by rw [hout 0 h.zero_not_mem, h.null], by rw [hout w h.not_mem, h.heap_w],
    h.isOpen, fun q o hq hqw => ?_,
    fun r hr => ?_, h.nodup, h.buf_none, hports.trans h.ports, h.one, hread.trans h.quiet,
    hlock.trans h.unlocked⟩, ⟨fun r hr => ?_, fun r => ?_, fun hm => ?_⟩⟩
  · by_contra hmem
    exact hmem (h.others q o (by rwa [← hout q hmem]) hqw)
  · obtain ⟨rp, hrp, hwp, hgp⟩ := h.readers r hr
    exact ⟨rp.push pk, hin r hr rp hrp, by simp [hwp], by simp [hgp]⟩
  · rw [hd, hg, hunread r hr, Ledger.credit]
    dsimp only
    split
    · rw [← List.append_assoc, hb.due r hr]
    · exact hb.due r hr
  · rw [hd, hg, Ledger.credit]
    dsimp only
    split
    · exact (hb.got_due r).trans (List.prefix_append _ _)
    · exact hb.got_due r
  · have hu := hb.unicast hm
    rcases h.cases_unicast hm with hnil | ⟨r, hone⟩
    · exact absurd hnil (h.buf_none.1 hbuf)
    · have hr := hunread r (by simp [hone])
      simp only [hone, List.flatMap_cons, List.flatMap_nil, List.append_nil, WritePort.waiting,
        hbuf, Option.elim_none, List.nil_append] at hu ⊢
      rw [hr]
      by_cases hfit : s.fits w r pk.length
      · simp [Ledger.record, Ledger.credit, hfit, hu]
      · simp [Ledger.record, Ledger.credit, hfit, hu]

theorem OnePort.write (pk : List α) (hs : portWrite s w pk = some (s', res)) :
    ∃ wp', wp'.mode = wp.mode ∧ OnePort w s' wp' ∧
      Balanced s' wp' (L.record s (.write w pk) res) := by
  rw [portWrite, if_neg h.addr, h.heap_w] at hs
  dsimp only at hs
  rw [if_neg (by simp [h.isOpen])] at hs
  cases hbuf : wp.buf with
  | some b =>
    cases hw : bufWrite b pk with
    | none =>
      simp only [hbuf, hw, Option.some.injEq, Prod.mk.injEq] at hs
      obtain ⟨rfl, rfl⟩ := hs
      refine ⟨wp, rfl, h, ?_⟩
      have hnil : wp.rpList = [] := not_ne_iff.1 fun hne => by simp [h.buf_none.2 hne] at hbuf
      simpa [Ledger.record, h.credit_eq_self hnil] using hb
    | some b' =>
      simp only [hbuf, hw, Option.some.injEq, Prod.mk.injEq] at hs
      obtain ⟨rfl, rfl⟩ := hs
      exact ⟨{ wp with buf := some b' }, rfl, h.write_own hb hbuf hw⟩
  | none =>
    obtain ⟨s₁, h₁, hout, hin, hports, hread, hlock⟩ := writeLoop_eq pk .noError h.nodup h.readers
    simp only [hbuf, h₁, Option.map_some, Option.some.injEq, Prod.mk.injEq] at hs
    obtain ⟨rfl, rfl⟩ := hs
    exact ⟨wp, rfl, h.write_readers hb hbuf hout hin hports hread hlock⟩

/-- A read of a reader takes the first of its packets. -/
theorem OnePort.read_reader
    {t : Reader} (hr : s.heap r = some (.readPort rp)) (ht : t.timeout = 0) :
    OnePort w (readNoLock s r rp t).1 wp ∧
      Balanced (readNoLock s r rp t).1 wp (L.record s (.read r t) (readNoLock s r rp t).2) := by
  have hmem := h.mem_of_heap hr
  unfold readNoLock
  cases hread : bufRead rp.buf with
  | none => simpa [blockReader, ht, Ledger.record] using ⟨h, hb⟩
  | some pb =>
    obtain ⟨p, b⟩ := pb
    obtain ⟨rp', hr', hwp, hgp⟩ := h.readers r hmem
    obtain rfl : rp = rp' := by simpa using hr.symm.trans hr'
    have hcons := bufRead_content hread
    have hrw : w ≠ r := fun hwr => h.not_mem (hwr ▸ hmem)
    have hself : (s.set r (.readPort { rp with buf := b })).unread r = b.content := by
      simp [Ports.unread, Ports.set]
    have hother : ∀ q, q ≠ r → (s.set r (.readPort { rp with buf := b })).unread q
        = s.unread q := fun q hq => by simp [Ports.unread, Ports.set, hq]
    have hunread : s.unread r = p :: b.content := by rw [Ports.unread_of_heap hr, hcons]
    have hr0 : (0 : ℕ) ≠ r := fun h0 => h.zero_not_mem (h0 ▸ hmem)
    refine ⟨⟨h.addr, by simpa [Ports.set, hr0] using h.null,
      by simpa [Ports.set, hrw] using h.heap_w, h.isOpen, fun q o hq hqw => ?_, fun q hq => ?_,
      h.nodup, h.buf_none, h.ports, h.one, h.quiet, h.unlocked⟩,
      ⟨fun q hq => ?_, fun q => ?_, fun hm => ?_⟩⟩
    · rcases eq_or_ne q r with rfl | hqr
      · exact hmem
      · exact h.others q o (by simpa [Ports.set, hqr] using hq) hqw
    · rcases eq_or_ne q r with rfl | hqr
      · exact ⟨{ rp with buf := b }, by simp [Ports.set], hwp, hgp⟩
      · simpa [Ports.set, hqr] using h.readers q hq
    · rcases eq_or_ne q r with rfl | hqr
      · have := hb.due q hq
        simp only [Ledger.record, update_self, hself]
        rw [hunread] at this
        simpa using this
      · simpa [Ledger.record, hqr, hother q hqr] using hb.due q hq
    · rcases eq_or_ne q r with rfl | hqr
      · have := hb.due q hmem
        rw [hunread] at this
        simp only [Ledger.record, update_self]
        exact ⟨b.content, by simpa using this⟩
      · simpa [Ledger.record, hqr] using hb.got_due q
    · have hu := hb.unicast hm
      have hne : wp.rpList ≠ [] := fun hnil => by simp [hnil] at hmem
      rcases h.cases_unicast hm with hnil | ⟨q, hone⟩
      · exact absurd hnil hne
      · obtain rfl : r = q := by simpa [hone] using hmem
        simp only [hone, List.flatMap_cons, List.flatMap_nil, List.append_nil, WritePort.waiting,
          h.buf_none.2 hne, Option.elim_none, List.nil_append, hunread] at hu ⊢
        simp [Ledger.record, hu, hself]

theorem OnePort.read {q : ℕ} {t : Reader} (ht : t.timeout = 0) (hs : portRead s q t = some (s', res)) :
    OnePort w s' wp ∧ Balanced s' wp (L.record s (.read q t) res) := by
  unfold portRead at hs
  split at hs
  · cases hs
    exact ⟨h, hb⟩
  · unfold readLocked at hs
    split at hs
    · exact absurd hs (by simp)
    · rename_i rp hr
      have hread := h.read_reader hb hr ht
      rwa [Option.some.inj hs] at hread
    · rename_i pg hg
      have hqw : q ≠ w := fun hqw => by
        rw [hqw, h.heap_w] at hg
        exact absurd hg (by simp)
      obtain ⟨rp, hr, -⟩ := h.readers q (h.others q _ hg hqw)
      exact absurd (hr.symm.trans hg) (by simp)
    · cases hs
      exact ⟨h, hb⟩

/-- **A new reader** on the port, with the buffer `b`. -/
theorem OnePort.add_reader {wp' : WritePort α}
    {r ctx : ℕ} {name : List Char} {rp : Option ℕ} {bufOk : Bool}
    (hr0 : r ≠ 0) (hr : s.heap r = none) (hname : wp.name = name) (hwait : b.content = wp.waiting)
    (hone : wp.mode &&& portModeUnicast ≠ 0 → wp.rpList = []) (hclosed : wp'.closed = wp.closed)
    (hbuf : wp'.buf = none) (hlist : wp'.rpList = wp.rpList ++ [r]) (hmode : wp'.mode = wp.mode)
    (hs : s' = (s.set w (.writePort wp')).set r (.readPort ⟨b, ctx, some w, none⟩)) :
    OnePort w s' wp' ∧
      Balanced s' wp' (L.record s (.openPort name ctx rp bufOk) (.port .noError r)) := by
  have hwr : w ≠ r := fun hwr => by
    rw [← hwr, h.heap_w] at hr
    exact absurd hr (by simp)
  have hrl : r ∉ wp.rpList := fun hmem => by
    obtain ⟨rp, hrp, -⟩ := h.readers r hmem
    rw [hr] at hrp
    exact absurd hrp (by simp)
  have hself : s'.heap r = some (.readPort ⟨b, ctx, some w, none⟩) := by simp [hs, Ports.set]
  have hother : ∀ q, q ≠ r → q ≠ w → s'.heap q = s.heap q := fun q hqr hqw => by
    simp [hs, Ports.set, hqr, hqw]
  have hold : ∀ q ∈ wp.rpList, s'.heap q = s.heap q := fun q hq =>
    hother q (fun hqr => hrl (hqr ▸ hq)) fun hqw => h.not_mem (hqw ▸ hq)
  have hfind : (findPort s name).elim [] (fun p => p.2.waiting) = b.content := by
    simp [h.find, hname, hwait]
  have hmem : ∀ q ∈ wp'.rpList, q ≠ r → q ∈ wp.rpList := fun q hq hqr => by
    simpa [hlist, hqr] using hq
  refine ⟨⟨h.addr, by rw [hother 0 hr0.symm h.addr.symm, h.null],
    by simp [hs, Ports.set, hwr], hclosed.trans h.isOpen, fun q o hq hqw => ?_,
    fun q hq => ?_, ?_, by simp [hbuf, hlist], by simp [hs, Ports.set, h.ports], fun hm => ?_,
    by simp [hs, Ports.set, h.quiet], by simp [hs, Ports.set, h.unlocked]⟩,
    ⟨fun q hq => ?_, fun q => ?_, fun hm => ?_⟩⟩
  · rw [hlist]
    rcases eq_or_ne q r with rfl | hqr
    · simp
    · exact List.mem_append_left _ (h.others q o (by rwa [← hother q hqr hqw]) hqw)
  · rcases eq_or_ne q r with rfl | hqr
    · exact ⟨_, hself, rfl, rfl⟩
    · rw [hold q (hmem q hq hqr)]
      exact h.readers q (hmem q hq hqr)
  · rw [hlist]
    refine List.nodup_append.2 ⟨h.nodup, List.nodup_singleton r, fun a ha c hc hac => ?_⟩
    obtain rfl := List.mem_singleton.1 hc
    exact hrl (hac ▸ ha)
  · rw [hmode] at hm
    simp [hlist, hone hm]
  · rcases eq_or_ne q r with rfl | hqr
    · simp [Ledger.record, Ports.unread_of_heap hself, hfind]
    · have hdue := hb.due q (hmem q hq hqr)
      simpa [Ledger.record, hqr, Ports.unread, hold q (hmem q hq hqr)] using hdue
  · rcases eq_or_ne q r with rfl | hqr
    · simp [Ledger.record]
    · simpa [Ledger.record, hqr] using hb.got_due q
  · rw [hmode] at hm
    have hu := hb.unicast hm
    simp only [hone hm, List.flatMap_nil, List.append_nil, List.nil_append] at hu hlist
    simp [Ledger.record, hlist, hbuf, WritePort.waiting, Ports.unread_of_heap hself, hu, hwait]

theorem OnePort.openPort [Inhabited α]
    (name : List Char) (ctx : ℕ) {rp : Option ℕ} (bufOk : Bool) (hf : s.Fresh rp) :
    ∃ wp', wp'.mode = wp.mode ∧ OnePort w (portOpen s name ctx rp bufOk).1 wp' ∧
      Balanced (portOpen s name ctx rp bufOk).1 wp'
        (L.record s (.openPort name ctx rp bufOk) (portOpen s name ctx rp bufOk).2) := by
  unfold portOpen
  split
  · rename_i r
    split
    · exact ⟨wp, rfl, h, hb⟩
    · rename_i w' wp' hfind
      rw [h.find] at hfind
      split at hfind
      · rename_i hname
        cases hfind
        split
        · rename_i b hbuf
          have hnil : wp.rpList = [] := by
            by_contra hne
            simp [h.buf_none.2 hne] at hbuf
          have hwait : b.content = wp.waiting := by simp [WritePort.waiting, hbuf]
          exact ⟨{ wp with buf := none, rpList := wp.rpList ++ [r] }, rfl,
            h.add_reader hb hf.1 hf.2 hname hwait (fun _ => hnil) rfl rfl rfl rfl rfl⟩
        · rename_i hbuf
          split
          · exact ⟨wp, rfl, h, hb⟩
          · rename_i hm
            have hwait : (makeBuf false : PortBuf α).content = wp.waiting := by
              simp [WritePort.waiting, hbuf]
            exact ⟨{ wp with rpList := wp.rpList ++ [r] }, rfl, h.add_reader hb hf.1 hf.2 hname hwait
              (fun hm' => absurd hm' hm) rfl hbuf rfl rfl rfl⟩
      · exact absurd hfind (by simp)
  · exact ⟨wp, rfl, h, hb⟩

/-- **A reader is closed**, and the last one leaves its buffer to the port. -/
theorem OnePort.remove_reader {wp' : WritePort α} {q : ℕ} (hr : s.heap q = some (.readPort rp))
    (hclosed : wp'.closed = wp.closed) (hmode : wp'.mode = wp.mode)
    (hlist : wp'.rpList = wp.rpList.erase q)
    (hbuf : wp'.buf = if wp.rpList.erase q = [] then some rp.buf else wp.buf)
    (hw : s'.heap w = some (.writePort wp')) (hq : s'.heap q = none)
    (hother : ∀ p, p ≠ w → p ≠ q → s'.heap p = s.heap p)
    (hports : s'.writePortList = s.writePortList) (hread : s'.reading = s.reading)
    (hlock : s'.threadLock = s.threadLock) : OnePort w s' wp' ∧ Balanced s' wp' L := by
  have hmem := h.mem_of_heap hr
  have hne : wp.rpList ≠ [] := List.ne_nil_of_mem hmem
  have hold : ∀ p ∈ wp'.rpList, p ∈ wp.rpList ∧ s'.heap p = s.heap p := fun p hp => by
    rw [hlist] at hp
    obtain ⟨hpq, hpl⟩ := h.nodup.mem_erase_iff.1 hp
    exact ⟨hpl, hother p (fun hpw => h.not_mem (hpw ▸ hpl)) hpq⟩
  have hq0 : (0 : ℕ) ≠ q := fun h0 => h.zero_not_mem (h0 ▸ hmem)
  refine ⟨⟨h.addr, by rw [hother 0 h.addr.symm hq0, h.null], hw, hclosed.trans h.isOpen,
    fun p o hp hpw => ?_, fun p hp => ?_,
    hlist ▸ h.nodup.erase q, ?_, hports.trans h.ports, fun hm => ?_, hread.trans h.quiet,
    hlock.trans h.unlocked⟩, ⟨fun p hp => ?_, hb.got_due, fun hm => ?_⟩⟩
  · have hpq : p ≠ q := fun hpq => by
      rw [hpq, hq] at hp
      exact absurd hp (by simp)
    rw [hother p hpw hpq] at hp
    exact hlist ▸ h.nodup.mem_erase_iff.2 ⟨hpq, h.others p o hp hpw⟩
  · rw [(hold p hp).2]
    exact h.readers p (hold p hp).1
  · rw [hbuf, hlist]
    split
    · rename_i hnil
      simp [hnil]
    · rename_i hnil
      simp [hnil, h.buf_none.2 hne]
  · rw [hmode] at hm
    rw [hlist]
    exact List.length_erase_le.trans (h.one hm)
  · have hdue := hb.due p (hold p hp).1
    rwa [show s'.unread p = s.unread p by simp [Ports.unread, (hold p hp).2]]
  · rw [hmode] at hm
    have hu := hb.unicast hm
    rcases h.cases_unicast hm with hnil | ⟨r, hone⟩
    · exact absurd hnil hne
    · obtain rfl : q = r := by simpa [hone] using hmem
      simp only [hone, List.erase_cons_head, if_true] at hbuf hlist
      simp only [hone, List.flatMap_cons, List.flatMap_nil, List.append_nil, WritePort.waiting,
        h.buf_none.2 hne, Option.elim_none, List.nil_append, Ports.unread_of_heap hr] at hu
      simp [hlist, hbuf, WritePort.waiting, hu]

theorem OnePort.close {q : ℕ} (hqw : q ≠ w) (hs : portClose s q = some (s', res)) :
    ∃ wp', wp'.mode = wp.mode ∧ OnePort w s' wp' ∧ Balanced s' wp' (L.record s (.close q) res) := by
  unfold portClose at hs
  split at hs
  · cases hs
    exact ⟨wp, rfl, h, hb⟩
  · cases ho : s.heap q with
    | none => simp [ho] at hs
    | some o =>
      have hmem := h.others q o ho hqw
      obtain ⟨rp, hr, hwp, hgp⟩ := h.readers q hmem
      simp only [hr, closeWport, closeGport, hwp, h.heap_w, hmem, if_true, Option.bind_some, hgp,
        Option.map_some, Option.some.injEq, Prod.mk.injEq] at hs
      obtain ⟨rfl, -⟩ := hs
      refine ⟨{ wp with
          rpList := wp.rpList.erase q
          buf := if wp.rpList.erase q = [] then some rp.buf else wp.buf }, rfl,
        h.remove_reader hb hr rfl rfl rfl rfl ?_ ?_ ?_ rfl rfl rfl⟩
      · simp [Ports.free, waitQueueWakeAll, Ports.set, hqw.symm]
      · simp [Ports.free]
      · intro p hpw hpq
        simp [Ports.free, waitQueueWakeAll, Ports.set, hpw, hpq]

end Steps

/-- The state and the ledger fit together. -/
def Delivers (w mode : ℕ) (p : Ports α × Ledger α) : Prop :=
  ∃ wp, wp.mode = mode ∧ OnePort w p.1 wp ∧ Balanced p.1 wp p.2

theorem Delivers.step [Inhabited α] {mode : ℕ} {p p' : Ports α × Ledger α} (h : Delivers w mode p)
    {c : Call α} (hc : c.OnPort w) (hs : ledgerStep p c = some p') : Delivers w mode p' := by
  obtain ⟨wp, rfl, h, hb⟩ := h
  obtain ⟨⟨s', res⟩, hstep, rfl⟩ := Option.map_eq_some_iff.1 hs
  unfold portStep at hstep
  rw [if_neg (by simp [h.unlocked])] at hstep
  cases c with
  | write w' pk =>
    obtain rfl : w' = w := hc
    exact h.write hb pk hstep
  | openPort name ctx rp bufOk =>
    dsimp only at hstep
    split at hstep
    · rename_i hf
      have hopen := h.openPort hb name ctx bufOk hf
      rwa [Option.some.inj hstep] at hopen
    · exact absurd hstep (by simp)
  | read q t =>
    dsimp only at hstep
    split at hstep
    · exact absurd hstep (by simp)
    · exact ⟨wp, rfl, h.read hb hc hstep⟩
  | close q => exact h.close hb hc hstep
  | create | group | groupAdd | groupRemove | resume | timer | destroy => exact absurd hc id

/-! ### Delivery -/

/-- The packet a call returned with. -/
def Result.packet? : Result α → Option α
  | .packet _ p => some p
  | _ => none

/-- **What is unread can be read**: as many reads as there are packets return them
in order. -/
theorem read_all [Inhabited α] (hr : s.heap r = some (.readPort rp))
    (hr0 : r ≠ 0) (hquiet : s.reading = []) (hlock : s.threadLock = false) :
    ∃ s', trace portStep s (List.replicate rp.buf.content.length (.read r ⟨0, 0⟩))
      = some (s', rp.buf.content.map (.packet rp.ctx)) := by
  generalize hl : rp.buf.content = l
  induction l generalizing s rp with
  | nil => exact ⟨s, rfl⟩
  | cons p l ih =>
    obtain ⟨⟨p', b⟩, hread⟩ : ∃ pb, bufRead rp.buf = some pb := by
      cases hread : bufRead rp.buf with
      | none => simp [bufRead_eq_none.1 hread] at hl
      | some pb => exact ⟨pb, rfl⟩
    have hcons := bufRead_content hread
    rw [hl] at hcons
    obtain ⟨rfl, rfl⟩ := List.cons.inj hcons
    have hstep : portStep s (.read r ⟨0, 0⟩)
        = some (s.set r (.readPort { rp with buf := b }), .packet rp.ctx p) := by
      simp [portStep, hlock, hquiet, portRead, hr0, readLocked, hr, readNoLock, hread]
    obtain ⟨s', hs'⟩ := @ih (s.set r (.readPort { rp with buf := b })) { rp with buf := b }
      (by simp [Ports.set]) hquiet hlock rfl
    exact ⟨s', by simp [trace, List.replicate_succ, hstep, hs']⟩

/-- What is pending at a unicast port can be read, after an open if nobody has the port open. -/
theorem OnePort.pending_readable [Inhabited α] (h : OnePort w s wp)
    (hm : wp.mode &&& portModeUnicast ≠ 0) :
    ∃ calls s' os, (∀ c ∈ calls, c.OnPort w) ∧ trace portStep s calls = some (s', os) ∧
      os.filterMap Result.packet? = s.pending w := by
  have hread : ∀ (r n : ℕ), ∀ c ∈ List.replicate n (Call.read r ⟨0, 0⟩ : Call α), c.OnPort w := by
    intro r n c hc
    obtain rfl := (List.mem_replicate.1 hc).2
    exact rfl
  have hmap : ∀ (ctx : ℕ) (l : List α),
      (l.map (Result.packet ctx)).filterMap Result.packet? = l := by
    intro ctx l
    induction l with
    | nil => rfl
    | cons p l ih => simpa [Result.packet?] using ih
  rcases h.cases_unicast hm with hnil | ⟨r, hone⟩
  · -- nobody reads the port: the packets go to the next reader
    obtain ⟨b, hbuf⟩ : ∃ b, wp.buf = some b := by
      cases hbuf : wp.buf with
      | none => exact absurd hnil (h.buf_none.1 hbuf)
      | some b => exact ⟨b, rfl⟩
    have hfree : s.heap (w + 1) = none := by
      by_contra hne
      obtain ⟨o, ho⟩ := Option.ne_none_iff_exists'.1 hne
      simpa [hnil] using h.others (w + 1) o ho (by omega)
    obtain ⟨s₁, hstep, hr, hquiet, hlock⟩ : ∃ s₁,
        portStep s (.openPort wp.name 0 (some (w + 1)) true) = some (s₁, .port .noError (w + 1)) ∧
          s₁.heap (w + 1) = some (.readPort ⟨b, 0, some w, none⟩) ∧ s₁.reading = [] ∧
          s₁.threadLock = false := by
      refine ⟨(s.set w (.writePort { wp with buf := none, rpList := wp.rpList ++ [w + 1] })).set
        (w + 1) (.readPort ⟨b, 0, some w, none⟩), ?_, by simp [Ports.set], h.quiet, h.unlocked⟩
      simp [portStep, h.unlocked, Ports.Fresh, hfree, portOpen, h.find, hbuf]
    obtain ⟨s', hs'⟩ := read_all hr (by omega) hquiet hlock
    refine ⟨.openPort wp.name 0 (some (w + 1)) true ::
        List.replicate b.content.length (.read (w + 1) ⟨0, 0⟩), s',
      .port .noError (w + 1) :: b.content.map (.packet 0), fun c hc => ?_, ?_, ?_⟩
    · rcases List.mem_cons.1 hc with rfl | hc
      · exact trivial
      · exact hread _ _ c hc
    · rw [trace, hstep, Option.bind_some, hs', Option.map_some]
    · rw [List.filterMap_cons_none rfl, hmap]
      simp [Ports.pending, h.heap_w, WritePort.waiting, hbuf, hnil]
  · have hmem : r ∈ wp.rpList := by simp [hone]
    obtain ⟨rp, hr, -⟩ := h.readers r hmem
    obtain ⟨s', hs'⟩ := read_all hr (fun h0 => h.zero_not_mem (h0 ▸ hmem)) h.quiet h.unlocked
    have hbuf := h.buf_none.2 (List.ne_nil_of_mem hmem)
    refine ⟨_, s', _, hread _ _, hs', ?_⟩
    simp [hmap, Ports.pending, h.heap_w, WritePort.waiting, hbuf, hone, Ports.unread_of_heap hr]

/-- **A new port** has nothing to deliver. -/
theorem delivers_create [Inhabited α] {name : List Char} {mode : ℕ} {s₀ : Ports α}
    (h : portStep portInit (.create name mode (some w) true) = some (s₀, .port .noError w)) :
    Delivers w mode (s₀, Ledger.empty) := by
  have hw : w ≠ 0 := by
    rintro rfl
    simp [portStep, portInit, Ports.Fresh] at h
  have hf : (portInit : Ports α).Fresh (some w) := ⟨hw, rfl⟩
  have hnone : findPort (portInit : Ports α) name = none := rfl
  have hlock : ¬ (portInit : Ports α).threadLock = true := by simp [portInit]
  unfold portStep at h
  rw [if_neg hlock] at h
  dsimp only at h
  rw [if_pos hf] at h
  unfold portCreate at h
  split at h
  · exact absurd h (by simp)
  · split at h
    · exact absurd h (by simp)
    · rw [hnone] at h
      obtain ⟨rfl, -⟩ := Prod.mk.inj (Option.some.inj h)
      refine ⟨⟨false, some (makeBuf (mode &&& portModeBigBuffer ≠ 0)), [], mode, name⟩, rfl,
        ⟨hw, by simp [Ports.set, hw.symm, portInit], by simp [Ports.set], rfl,
          fun q o hq hqw => ?_, fun r hr => ?_, List.nodup_nil, by simp, rfl, by simp, rfl, rfl⟩,
        ⟨fun r hr => ?_, fun r => ?_, fun _ => ?_⟩⟩
      · simp [Ports.set, hqw, portInit] at hq
      · simp at hr
      · simp at hr
      · exact List.prefix_refl _
      · simp [Ledger.empty, WritePort.waiting]

/-- **Delivery.**  After any sequence of writes, opens, reads that do not block and
closes of readers on a new port: if it is unicast, the packets of the writes that
returned `NO_ERROR` are those read followed by those pending, and the pending ones
can be read; and each reader has read, in order, a beginning of the packets due to
it, the rest of which an open reader reads next. -/
theorem port_delivery [Inhabited α] (name : List Char) (mode w : ℕ) (s₀ : Ports α)
    (hnew : portStep portInit (.create name mode (some w) true) = some (s₀, .port .noError w))
    (as : List (Call α)) (has : ∀ c ∈ as, c.OnPort w) (s : Ports α) (L : Ledger α)
    (h : run ledgerStep (s₀, Ledger.empty) as = some (s, L)) :
    (mode &&& portModeUnicast ≠ 0 → L.written = L.taken ++ s.pending w ∧
        ∃ calls s' os, (∀ c ∈ calls, c.OnPort w) ∧ trace portStep s calls = some (s', os) ∧
          os.filterMap Result.packet? = s.pending w) ∧
      ∀ r, L.got r <+: L.due r ∧ ∀ rp, s.heap r = some (.readPort rp) →
        L.due r = L.got r ++ rp.buf.content ∧
        ∃ s', trace portStep s (List.replicate rp.buf.content.length (.read r ⟨0, 0⟩))
          = some (s', rp.buf.content.map (.packet rp.ctx)) := by
  obtain ⟨wp, rfl, hone, hb⟩ : Delivers w mode (s, L) :=
    run_inv_along (fun _ _ _ hd hc hs => hd.step hc hs) as _ _ (delivers_create hnew)
      (along_of_forall _ has) h
  refine ⟨fun hm => ⟨?_, hone.pending_readable hm⟩, fun r => ⟨hb.got_due r, fun rp hr => ?_⟩⟩
  · have hheap : s.heap w = some (.writePort wp) := hone.heap_w
    rw [Ports.pending, hheap]
    exact hb.unicast hm
  · have hmem := hone.mem_of_heap hr
    have hdue := hb.due r hmem
    rw [Ports.unread_of_heap hr] at hdue
    exact ⟨hdue.symm, read_all hr (fun h0 => hone.zero_not_mem (h0 ▸ hmem)) hone.quiet
      hone.unlocked⟩

/-- A reader of a unicast port is closed with a packet pending and opened again. -/
def reopenCalls : List (Call ℕ) :=
  [.write 1 [5, 6], .openPort ['p'] 9 (some 2) true, .read 2 ⟨0, 0⟩, .write 1 [7, 8],
    .write 1 (List.replicate 6 0), .close 2, .openPort ['p'] 9 (some 3) true, .read 3 ⟨0, 0⟩]

/-- Two readers of a broadcast port, and a write that fits only the first: it returns
`ERR_PARTIAL_WRITE` and is due to that one. -/
def partialCalls : List (Call ℕ) :=
  [.openPort ['b'] 9 (some 2) true, .openPort ['b'] 9 (some 3) true, .write 1 [5, 6],
    .read 2 ⟨0, 0⟩, .write 1 (List.replicate 7 0), .read 3 ⟨0, 0⟩]

/-- What was pending comes to the reader that opens the port again, and of two readers only the one
that a write fits is owed its packets. -/
theorem port_delivery_reopened :
    (∃ s₀ s L, portStep (portInit : Ports ℕ) (.create ['p'] portModeUnicast (some 1) true)
        = some (s₀, .port .noError 1) ∧
      run ledgerStep (s₀, Ledger.empty) reopenCalls = some (s, L) ∧
      L.written = [5, 6, 7, 8] ∧ L.taken = [5, 6] ∧ L.written = L.taken ++ s.pending 1) ∧
    ∃ s₀ s L, portStep (portInit : Ports ℕ) (.create ['b'] portModeBroadcast (some 1) true)
        = some (s₀, .port .noError 1) ∧
      run ledgerStep (s₀, Ledger.empty) partialCalls = some (s, L) ∧
      L.due 2 = [5, 6] ++ List.replicate 7 0 ∧ L.due 3 = [5, 6] ∧ L.got 3 = [5] ∧
      ∀ r, L.got r <+: L.due r := by
  refine ⟨⟨_, _, _, rfl, rfl, rfl, rfl, ?_⟩, _, _, _, rfl, rfl, rfl, rfl, rfl, fun r => ?_⟩
  · exact ((port_delivery ['p'] portModeUnicast 1 _ rfl reopenCalls (by decide) _ _ rfl).1
      (by decide)).1
  · exact ((port_delivery ['b'] portModeBroadcast 1 _ rfl partialCalls (by decide) _ _ rfl).2 r).1

end Port
end LittleKernel
