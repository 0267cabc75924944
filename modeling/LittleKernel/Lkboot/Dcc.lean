/-
# The DCC channel of lkboot

`app/lkboot/dcc.c`: `dcc_process_opcode`, `dcc_read` and `dcc_write`.  The debug channel carries
single words; the bytes go through two buffers of `DCC_BUFLEN` bytes, one a direction, each
filled by one side, announced in a word and handed back in another.

A call looks for a word of the host once a round, and gets none when it times out.  The host
announces a buffer once the one before was handed back; a word `updateOutIndex` stands for both
its announcement and what it has put into `htod_buffer`, and on the way back `sent` keeps what
the host takes from `dtoh_buffer` when a count is announced.

Reading is faithful.  `dcc_write` cuts what does not fit into one buffer, but fills every
buffer with the first bytes of `data`, as many as `len` asks for and not as are left
(`dcc_faithful_iff`).
-/

import LittleKernel.Lib.Machine
import LittleKernel.Lib.Memory
import Mathlib.Data.List.Flatten

namespace LittleKernel
namespace Lkboot

open Machine Memory

/-- `DCC_BUFLEN`. -/
def dccBuflen : ℕ := 256

/-- A word of the host; `other` is an opcode the device does not know, and the rest of the
words have no `PDCC_VALID`. -/
inductive HostWord where
  | reset
  | bufHeader
  | updateOutIndex (index : ℕ) (htodBuffer : ℕ → UInt8)
  | consumedIn
  | other
  | invalid

/-- A word of the device; a count comes with the bytes the host takes for it. -/
inductive DevWord where
  | bufHeader
  | reset
  | updateOutIndex (bytes : List UInt8)
  | consumedIn

/-- The state of `dcc.c`, the words sent, what the host has announced, and whether it kept to
its part. -/
structure Dcc where
  htodIndex : ℕ
  htodPos : ℕ
  dtohFilled : Bool
  htodBuffer : ℕ → UInt8
  dtohBuffer : ℕ → UInt8
  sent : List DevWord
  announced : List (List UInt8)
  fair : Bool

/-- `dcc_process_opcode`: whether it was a reset. -/
def dccProcessOpcode (s : Dcc) : HostWord → Dcc × Bool
  | .reset =>
    ({ s with
        htodIndex := 0
        htodPos := 0
        dtohFilled := false
        sent := s.sent ++ [.bufHeader] }, true)
  | .bufHeader => (s, false)
  | .updateOutIndex index buf =>
    if index > dccBuflen then ({ s with sent := s.sent ++ [.reset] }, false)
    else ({ s with htodIndex := index, htodPos := 0, htodBuffer := buf }, false)
  | .consumedIn => ({ s with dtohFilled := false }, false)
  | .other => ({ s with sent := s.sent ++ [.reset] }, false)
  | .invalid => (s, false)

/-- The bytes that a word announces. -/
def HostWord.bytes : HostWord → Option (List UInt8)
  | .updateOutIndex index buf => some (window buf 0 index)
  | _ => none

/-- What a host may send: no reset and nothing unknown, and a buffer when it has the last one
back. -/
def HostWord.Fair (s : Dcc) : HostWord → Prop
  | .updateOutIndex index _ => s.htodIndex = 0 ∧ index ≤ dccBuflen
  | .consumedIn => True
  | .invalid => True
  | _ => False

instance (s : Dcc) : ∀ w : HostWord, Decidable (w.Fair s)
  | .updateOutIndex _ _ => inferInstanceAs (Decidable (_ ∧ _))
  | .consumedIn => .isTrue trivial
  | .invalid => .isTrue trivial
  | .reset => .isFalse id
  | .bufHeader => .isFalse id
  | .other => .isFalse id

/-- `arm_dcc_read` and `dcc_process_opcode`, of a word or none. -/
def receive (s : Dcc) : Option HostWord → Dcc × Bool
  | none => (s, false)
  | some w =>
    dccProcessOpcode { s with
      announced := s.announced ++ w.bytes.toList
      fair := s.fair && decide (w.Fair s) } w

/-- `dcc_read` behind a copy of `tocopy` bytes: a buffer that is used up goes back. -/
def dccTake (s : Dcc) (tocopy : ℕ) : Dcc :=
  if s.htodPos + tocopy = s.htodIndex then
    { s with htodIndex := 0, htodPos := 0, sent := s.sent ++ [.consumedIn] }
  else { s with htodPos := s.htodPos + tocopy }

/-- The loop of `dcc_read` with `len` bytes to go, over the words it gets: `none` when it
waits on, and else the bytes it stored unless it returns `ERR_IO`, and the words left. -/
def dccRead : List (Option HostWord) → Dcc → ℕ →
    Option (Dcc × Option (List UInt8) × List (Option HostWord))
  | ws, s, 0 => some (s, some [], ws)
  | [], _, _ + 1 => none
  | w :: ws, s, len + 1 =>
    match receive s w with
    | (s, true) => some (s, none, ws)
    | (s, false) =>
      if s.htodIndex > 0 then
        let tocopy := min (s.htodIndex - s.htodPos) (len + 1)
        let d := window s.htodBuffer s.htodPos tocopy
        (dccRead ws (dccTake s tocopy) (len + 1 - tocopy)).map fun r =>
          (r.1, r.2.1.map (d ++ ·), r.2.2)
      else dccRead ws s (len + 1)

/-- The fill of `dcc_write`, at `pos`: the bytes are the first ones of `data`, whatever `pos`
is. -/
def dccFill (s : Dcc) (data : List UInt8) (pos : ℕ) : Dcc × ℕ :=
  if s.dtohFilled then (s, pos)
  else
    let tocopy := min data.length dccBuflen
    let buf := store s.dtohBuffer 0 (data.take tocopy)
    ({ s with
        dtohBuffer := buf
        sent := s.sent ++ [.updateOutIndex (window buf 0 tocopy)]
        dtohFilled := true }, pos + tocopy)

/-- The loop of `dcc_write` from `pos` on: `none` when it waits on, and else what it returns
unless that is `ERR_IO`, and the words left. -/
def dccWrite (data : List UInt8) :
    List (Option HostWord) → Dcc → ℕ → Option (Dcc × Option ℕ × List (Option HostWord))
  | [], s, pos => if pos < data.length then none else some (s, some pos, [])
  | w :: ws, s, pos =>
    if pos < data.length then
      let r := dccFill s data pos
      match receive r.1 w with
      | (s, true) => some (s, none, ws)
      | (s, false) => dccWrite data ws s r.2
    else some (s, some pos, w :: ws)

/-! ### Reading -/

/-- The buffers whose bytes the host was told to take, and how many it got back. -/
def toHost (l : List DevWord) : List (List UInt8) :=
  l.filterMap fun w => match w with
    | .updateOutIndex bytes => some bytes
    | _ => none

def acks (l : List DevWord) : ℕ :=
  l.countP fun w => match w with
    | .consumedIn => true
    | _ => false

@[simp] theorem toHost_append (l m : List DevWord) : toHost (l ++ m) = toHost l ++ toHost m :=
  List.filterMap_append

@[simp] theorem acks_append (l m : List DevWord) : acks (l ++ m) = acks l + acks m :=
  List.countP_append

/-- What is left of the buffer in hand. -/
def Dcc.pending (s : Dcc) : List UInt8 := window s.htodBuffer s.htodPos (s.htodIndex - s.htodPos)

/-- **The bytes taken and those in hand are what was announced**, and every buffer was handed
back but the one in hand and the empty ones. -/
structure Reads (s : Dcc) (taken : List UInt8) : Prop where
  pos : s.htodIndex = 0 ∧ s.htodPos = 0 ∨ s.htodPos < s.htodIndex
  bytes : s.announced.flatten = taken ++ s.pending
  back : acks s.sent + (if s.htodIndex > 0 then 1 else 0) + s.announced.count [] =
    s.announced.length

variable {taken : List UInt8}

theorem Reads.congr {s t : Dcc} (h : Reads s taken)
    (hi : t.htodIndex = s.htodIndex) (hp : t.htodPos = s.htodPos)
    (hb : t.htodBuffer = s.htodBuffer) (ha : t.announced = s.announced)
    (hs : acks t.sent = acks s.sent) : Reads t taken where
  pos := by rw [hi, hp]; exact h.pos
  bytes := by rw [ha, h.bytes, Dcc.pending, Dcc.pending, hi, hp, hb]
  back := by rw [hi, ha, hs]; exact h.back

/-- A fair state behind a word was fair before, and the word is one the host may send. -/
theorem receive_fair {s : Dcc} {w : HostWord} (hf : (receive s (some w)).1.fair = true) :
    s.fair = true ∧ w.Fair s := by
  have : (s.fair && decide (w.Fair s)) = true := by
    cases w with
    | updateOutIndex index buf =>
      simp only [receive, dccProcessOpcode] at hf
      split_ifs at hf <;> exact hf
    | _ => exact hf
  rwa [Bool.and_eq_true, decide_eq_true_iff] at this

/-- What receiving a word changes of the rest. -/
theorem receive_spec {s : Dcc} {w : Option HostWord}
    (h : s.fair = true → Reads s taken) (hf : (receive s w).1.fair = true) :
    s.fair = true ∧ (receive s w).2 = false ∧ Reads (receive s w).1 taken ∧
      (receive s w).1.announced = s.announced ++ (w.bind HostWord.bytes).toList ∧
      toHost (receive s w).1.sent = toHost s.sent := by
  cases w with
  | none => exact ⟨hf, rfl, h hf, (List.append_nil _).symm, rfl⟩
  | some w =>
    have hfair := receive_fair hf
    replace h := h hfair.1
    refine ⟨hfair.1, ?_⟩
    cases w with
    | reset => exact hfair.2.elim
    | bufHeader => exact hfair.2.elim
    | other => exact hfair.2.elim
    | invalid => exact ⟨rfl, h.congr rfl rfl rfl (List.append_nil _) rfl, rfl, rfl⟩
    | consumedIn => exact ⟨rfl, h.congr rfl rfl rfl (List.append_nil _) rfl, rfl, rfl⟩
    | updateOutIndex index buf =>
      obtain ⟨h0, hle⟩ := hfair.2
      have hpend : s.pending = [] := by
        rw [Dcc.pending, h0]
        simp
      have hback := h.back
      rw [h0, if_neg (by omega)] at hback
      have hle' : ¬ index > dccBuflen := by omega
      have hres : receive s (some (.updateOutIndex index buf)) =
          ({ s with
              announced := s.announced ++ [window buf 0 index]
              fair := s.fair && decide (HostWord.Fair s (.updateOutIndex index buf))
              htodIndex := index
              htodPos := 0
              htodBuffer := buf }, false) := if_neg hle'
      rw [hres]
      refine ⟨rfl, ⟨?_, ?_, ?_⟩, rfl, rfl⟩
      · dsimp only
        omega
      · rw [List.flatten_append, h.bytes, hpend]
        simp [Dcc.pending]
      · dsimp only
        rw [List.count_append, List.length_append, List.length_singleton]
        rcases Nat.eq_zero_or_pos index with rfl | hpos
        · rw [window_zero, List.count_singleton_self, if_neg (Nat.lt_irrefl 0)]
          omega
        · have hne : window buf 0 index ≠ [] := fun h0 => by
            have := congrArg List.length h0
            rw [length_window, List.length_nil] at this
            omega
          rw [if_pos hpos, List.count_singleton, if_neg (by simpa using hne)]
          omega

/-- Taking bytes of the buffer in hand. -/
theorem Reads.take {s : Dcc} (h : Reads s taken) (hi : s.htodIndex > 0)
    {n : ℕ} (hn : n ≤ s.htodIndex - s.htodPos) :
    Reads (dccTake s n) (taken ++ window s.htodBuffer s.htodPos n) ∧
      (dccTake s n).announced = s.announced ∧ toHost (dccTake s n).sent = toHost s.sent := by
  have hback := h.back
  rw [if_pos hi] at hback
  have hpos : s.htodPos < s.htodIndex := h.pos.resolve_left (by omega)
  obtain ⟨c, hc⟩ := Nat.exists_eq_add_of_le hn
  have hsplit : s.pending = window s.htodBuffer s.htodPos n ++
      window s.htodBuffer (s.htodPos + n) c := by
    rw [Dcc.pending, hc, window_add]
  rw [dccTake]
  by_cases hall : s.htodPos + n = s.htodIndex
  · obtain rfl : c = 0 := by omega
    rw [if_pos hall]
    refine ⟨⟨.inl ⟨rfl, rfl⟩, ?_, ?_⟩, rfl, ?_⟩
    · rw [h.bytes, hsplit, Dcc.pending]
      simp
    · dsimp only
      rw [acks_append, if_neg (Nat.lt_irrefl 0), show acks [.consumedIn] = 1 by rfl]
      omega
    · rw [toHost_append]
      exact List.append_nil _
  · rw [if_neg hall]
    refine ⟨⟨.inr (by dsimp only; omega), ?_, ?_⟩, rfl, rfl⟩
    · rw [h.bytes, hsplit, Dcc.pending, List.append_assoc]
      dsimp only
      rw [show s.htodIndex - (s.htodPos + n) = c by omega]
    · dsimp only
      rw [if_pos hi]
      exact hback

theorem dccTake_fair (s : Dcc) (n : ℕ) : (dccTake s n).fair = s.fair := by
  rw [dccTake]
  split_ifs <;> rfl

variable {ws ws' : List (Option HostWord)} {s s' : Dcc}

theorem dccRead_zero {d : Option (List UInt8)} (h : s.fair = true → Reads s taken)
    (hr : dccRead ws s 0 = some (s', d, ws')) (hf : s'.fair = true) :
    s.fair = true ∧ ∃ d', d = some d' ∧ d'.length = 0 ∧ Reads s' (taken ++ d') ∧
      toHost s'.sent = toHost s.sent ∧ ∃ used, ws = used ++ ws' ∧
        s'.announced = s.announced ++ used.flatMap fun w => (w.bind HostWord.bytes).toList := by
  rw [dccRead] at hr
  obtain ⟨rfl, h₁⟩ := Prod.mk.inj (Option.some.inj hr)
  obtain ⟨rfl, rfl⟩ := Prod.mk.inj h₁
  exact ⟨hf, [], rfl, rfl, by rw [List.append_nil]; exact h hf, rfl, [], rfl,
    (List.append_nil _).symm⟩

/-- **A call of `dcc_read` that returns** has stored `len` bytes, and the words it got are
received. -/
theorem dccRead_spec {len : ℕ} {d : Option (List UInt8)} (h : s.fair = true → Reads s taken)
    (hr : dccRead ws s len = some (s', d, ws')) (hf : s'.fair = true) :
    s.fair = true ∧ ∃ d', d = some d' ∧ d'.length = len ∧ Reads s' (taken ++ d') ∧
      toHost s'.sent = toHost s.sent ∧ ∃ used, ws = used ++ ws' ∧
        s'.announced = s.announced ++ used.flatMap fun w => (w.bind HostWord.bytes).toList := by
  induction ws generalizing s len taken d with
  | nil =>
    cases len with
    | zero => exact dccRead_zero h hr hf
    | succ len => cases hr
  | cons w ws ih =>
    cases len with
    | zero => exact dccRead_zero h hr hf
    | succ len =>
      rw [dccRead] at hr
      rcases hw : receive s w with ⟨t, reset⟩
      rw [hw] at hr
      have hspec : t.fair = true → s.fair = true ∧ reset = false ∧ Reads t taken ∧
          t.announced = s.announced ++ (w.bind HostWord.bytes).toList ∧
          toHost t.sent = toHost s.sent := fun ht => by
        have := receive_spec h (w := w) (by rw [hw]; exact ht)
        rwa [hw] at this
      cases reset with
      | true =>
        obtain ⟨rfl, -⟩ := Prod.mk.inj (Option.some.inj hr)
        cases (hspec hf).2.1
      | false =>
        dsimp only at hr
        by_cases hi : t.htodIndex > 0
        · rw [if_pos hi] at hr
          obtain ⟨⟨u, d', us⟩, hrec, heq⟩ := Option.map_eq_some_iff.1 hr
          obtain ⟨rfl, h₁⟩ := Prod.mk.inj heq
          obtain ⟨rfl, rfl⟩ := Prod.mk.inj h₁
          have hmin := Nat.min_le_left (t.htodIndex - t.htodPos) (len + 1)
          obtain ⟨hfair, d'', rfl, hlen, hreads', hhost', used, rfl, hused⟩ :=
            ih (fun ht => ((hspec ((dccTake_fair _ _).symm.trans ht)).2.2.1.take hi hmin).1)
              hrec
          rw [dccTake_fair] at hfair
          obtain ⟨hs, -, hreads, hann, hhost⟩ := hspec hfair
          obtain ⟨-, hann', hhost''⟩ := hreads.take hi hmin
          refine ⟨hs, _, rfl, ?_, ?_, ?_, w :: used, rfl, ?_⟩
          · rw [List.length_append, length_window, hlen]
            omega
          · rwa [← List.append_assoc]
          · rw [hhost', hhost'', hhost]
          · rw [hused, hann', hann, List.flatMap_cons, List.append_assoc]
        · rw [if_neg hi] at hr
          obtain ⟨hfair, d', rfl, hlen, hreads', hhost', used, rfl, hused⟩ :=
            ih (fun ht => (hspec ht).2.2.1) hr
          obtain ⟨hs, -, hreads, hann, hhost⟩ := hspec hfair
          refine ⟨hs, d', rfl, hlen, hreads', hhost'.trans hhost, w :: used, rfl, ?_⟩
          rw [hused, hann, List.flatMap_cons, List.append_assoc]

/-! ### Writing -/

/-- What a round of `dcc_write` puts into the buffer. -/
theorem dccFill_spec (s : Dcc) (data : List UInt8) (pos : ℕ) :
    (∀ taken, Reads s taken → Reads (dccFill s data pos).1 taken) ∧
      (dccFill s data pos).1.announced = s.announced ∧ (dccFill s data pos).1.fair = s.fair ∧
      ((dccFill s data pos).2 = pos ∧ toHost (dccFill s data pos).1.sent = toHost s.sent ∨
        (dccFill s data pos).2 = pos + min data.length dccBuflen ∧
          toHost (dccFill s data pos).1.sent = toHost s.sent ++ [data.take dccBuflen]) := by
  rw [dccFill]
  by_cases hfill : s.dtohFilled = true
  · rw [if_pos hfill]
    exact ⟨fun _ h => h, rfl, rfl, .inl ⟨rfl, rfl⟩⟩
  rw [if_neg hfill]
  refine ⟨fun taken h => h.congr rfl rfl rfl rfl ?_, rfl, rfl, .inr ⟨rfl, ?_⟩⟩
  · rw [acks_append]
    rfl
  · have htake : data.take (min data.length dccBuflen) = data.take dccBuflen :=
      List.take_eq_take_iff.2 (by omega)
    have hwin := window_store s.dtohBuffer 0 [] (data.take dccBuflen) []
    simp only [List.nil_append, List.append_nil, List.length_nil, Nat.add_zero,
      List.length_take] at hwin
    rw [toHost_append, htake, Nat.min_comm data.length, hwin]
    rfl

/-- **A call of `dcc_write` that returns** has announced whole buffers, all of them with the
first bytes of the data, and says how many bytes these were. -/
theorem dccWrite_spec {data : List UInt8}
    {pos : ℕ} {r : Option ℕ} (h : s.fair = true → Reads s taken)
    (hpos : pos < data.length + min data.length dccBuflen ∨ pos = 0)
    (hr : dccWrite data ws s pos = some (s', r, ws')) (hf : s'.fair = true) :
    s.fair = true ∧ Reads s' taken ∧ (∃ k, r = some (pos + k * min data.length dccBuflen) ∧
        data.length ≤ pos + k * min data.length dccBuflen ∧
        (pos + k * min data.length dccBuflen < data.length + min data.length dccBuflen ∨
          pos + k * min data.length dccBuflen = 0) ∧
        toHost s'.sent = toHost s.sent ++ List.replicate k (data.take dccBuflen)) ∧
      ∃ used, ws = used ++ ws' ∧
        s'.announced = s.announced ++ used.flatMap fun w => (w.bind HostWord.bytes).toList := by
  induction ws generalizing s pos with
  | nil =>
    rw [dccWrite] at hr
    split_ifs at hr with hlt
    obtain ⟨rfl, h₁⟩ := Prod.mk.inj (Option.some.inj hr)
    obtain ⟨rfl, rfl⟩ := Prod.mk.inj h₁
    exact ⟨hf, h hf, ⟨0, by simp, by omega, by simpa using hpos, (List.append_nil _).symm⟩, [],
      rfl, (List.append_nil _).symm⟩
  | cons w ws ih =>
    rw [dccWrite] at hr
    by_cases hlt : pos < data.length
    · rw [if_pos hlt] at hr
      obtain ⟨hreads, hann, hfair, hfill⟩ := dccFill_spec s data pos
      dsimp only at hr
      generalize dccFill s data pos = f at hr hreads hann hfair hfill
      rcases hw : receive f.1 w with ⟨t, reset⟩
      rw [hw] at hr
      have hspec : t.fair = true → f.1.fair = true ∧ reset = false ∧ Reads t taken ∧
          t.announced = f.1.announced ++ (w.bind HostWord.bytes).toList ∧
          toHost t.sent = toHost f.1.sent := fun ht => by
        have := receive_spec (s := f.1) (w := w) (fun hs => hreads _ (h (hfair ▸ hs)))
          (by rw [hw]; exact ht)
        rwa [hw] at this
      cases reset with
      | true =>
        obtain ⟨rfl, -⟩ := Prod.mk.inj (Option.some.inj hr)
        cases (hspec hf).2.1
      | false =>
        obtain ⟨ht, hreads', ⟨k, rfl, hge, hk, hhost⟩, used, rfl, hused⟩ :=
          ih (fun ht => (hspec ht).2.2.1) (by omega) hr
        obtain ⟨hs, -, -, hann', hhost'⟩ := hspec ht
        refine ⟨hfair ▸ hs, hreads', ?_, w :: used, rfl, ?_⟩
        · rcases hfill with ⟨hp, hh⟩ | ⟨hp, hh⟩
          · rw [hp] at hge hk
            exact ⟨k, by rw [hp], hge, hk, by rw [hhost, hhost', hh]⟩
          · have hmul : pos + min data.length dccBuflen + k * min data.length dccBuflen =
                pos + (k + 1) * min data.length dccBuflen := by
              rw [Nat.add_mul, Nat.one_mul, Nat.add_assoc, Nat.add_comm (min _ _)]
            rw [hp, hmul] at hge hk
            refine ⟨k + 1, by rw [hp, hmul], hge, hk, ?_⟩
            rw [hhost, hhost', hh, List.append_assoc, List.replicate_succ]
            rfl
        · rw [hused, hann', hann, List.flatMap_cons, List.append_assoc]
    · rw [if_neg hlt] at hr
      obtain ⟨rfl, h₁⟩ := Prod.mk.inj (Option.some.inj hr)
      obtain ⟨rfl, rfl⟩ := Prod.mk.inj h₁
      exact ⟨hf, h hf, ⟨0, by simp, by omega, by simpa using hpos, (List.append_nil _).symm⟩, [],
        rfl, (List.append_nil _).symm⟩

/-! ## The channel -/

/-- The device, what it was given to write, what it has read, and whether every call came to
what it should. -/
structure Channel where
  dcc : Dcc
  written : List UInt8
  taken : List UInt8
  right : Bool

/-- A call, with the words that the host sends while it lasts. -/
inductive DccOp where
  | write (data : List UInt8) (words : List (Option HostWord))
  | read (len : ℕ) (words : List (Option HostWord))

def DccOp.words : DccOp → List (Option HostWord)
  | .write _ ws => ws
  | .read _ ws => ws

/-- One call; `none` where it does not return with these words or the host does not keep to
its part. -/
def channelStep (s : Channel) : DccOp → Option Channel
  | .write data ws =>
    match dccWrite data ws s.dcc 0 with
    | some (d, r, []) =>
      if d.fair then
        some
          { s with
            dcc := d
            written := s.written ++ data
            right := s.right && decide (r = some data.length) }
      else none
    | _ => none
  | .read len ws =>
    match dccRead ws s.dcc len with
    | some (d, r, []) =>
      if d.fair then
        some
          { s with
            dcc := d
            taken := s.taken ++ r.getD []
            right := s.right && decide (r.map List.length = some len) }
      else none
    | _ => none

/-- Both directions are empty. -/
def Channel.start (htodBuffer dtohBuffer : ℕ → UInt8) : Channel :=
  { dcc := ⟨0, 0, false, htodBuffer, dtohBuffer, [], [], true⟩
    written := []
    taken := []
    right := true }

/-- **The channel is faithful:** the host gets what was written, every call returned what it
should, the device gets what the host announced, and every buffer but the one in hand was
handed back once. -/
structure Faithful (s : Channel) : Prop where
  host : (toHost s.dcc.sent).flatten = s.written
  calls : s.right = true
  device : s.dcc.announced.flatten = s.taken ++ s.dcc.pending
  back : acks s.dcc.sent + (if s.dcc.htodIndex > 0 then 1 else 0) = s.dcc.announced.length

/-- The data fits one buffer, or is made of whole buffers that are all the same. -/
def Repeats (data : List UInt8) : Prop :=
  data.length ≤ dccBuflen ∨
    data = (List.replicate (data.length / dccBuflen) (data.take dccBuflen)).flatten

/-- The host announces no empty buffer. -/
def NoEmpty (ws : List (Option HostWord)) : Prop := ∀ w ∈ ws, w.bind HostWord.bytes ≠ some []

def DccOp.Ok : DccOp → Prop
  | .write data ws => Repeats data ∧ NoEmpty ws
  | .read _ ws => NoEmpty ws

theorem count_announced (ws : List (Option HostWord)) :
    (ws.flatMap fun w => (w.bind HostWord.bytes).toList).count [] = 0 ↔ NoEmpty ws := by
  rw [List.count_eq_zero, List.mem_flatMap, NoEmpty]
  simp only [Option.mem_toList, not_exists, not_and, ne_eq]

/-- **The data that arrives whole:** the buffers that `dcc_write` announces are the data. -/
theorem repeats_iff {data : List UInt8} {k : ℕ} (hge : data.length ≤ k * min data.length dccBuflen)
    (hk : k * min data.length dccBuflen < data.length + min data.length dccBuflen ∨
      k * min data.length dccBuflen = 0) :
    ((List.replicate k (data.take dccBuflen)).flatten = data ∧
      k * min data.length dccBuflen = data.length) ↔ Repeats data := by
  have hflat : (List.replicate k (data.take dccBuflen)).flatten.length =
      k * min data.length dccBuflen := by
    rw [List.length_flatten, List.map_replicate, List.sum_replicate_nat, List.length_take,
      Nat.min_comm]
  rcases Nat.lt_or_ge dccBuflen data.length with hlong | hshort
  · rw [Nat.min_eq_right (Nat.le_of_lt hlong)] at hge hk hflat ⊢
    unfold dccBuflen at *
    have hdiv : ∀ n, n * 256 = data.length → data.length / 256 = n := fun n h => by omega
    constructor
    · rintro ⟨hdata, hlen⟩
      refine .inr ?_
      unfold dccBuflen
      rw [hdiv k hlen, hdata]
    · rintro (h | h)
      · unfold dccBuflen at h
        omega
      · unfold dccBuflen at h
        have hlen := congrArg List.length h
        rw [List.length_flatten, List.map_replicate, List.sum_replicate_nat, List.length_take,
          Nat.min_eq_left (Nat.le_of_lt hlong)] at hlen
        have hkd : k = data.length / 256 := by omega
        rw [hkd]
        exact ⟨h.symm, hlen.symm⟩
  · refine iff_of_true ?_ (.inl hshort)
    rw [Nat.min_eq_left hshort] at hge hk ⊢
    rcases Nat.eq_zero_or_pos data.length with h0 | hpos
    · rw [h0, Nat.mul_zero, List.length_eq_zero_iff.1 h0]
      simp
    · have hone : k = 1 := by
        rcases hk with hk | hk
        · have h₁ : k < 2 := by
            by_contra hno
            have := Nat.mul_le_mul_right data.length (show 2 ≤ k by omega)
            omega
          have h₂ : k ≠ 0 := by
            rintro rfl
            omega
          omega
        · omega
      subst hone
      rw [List.replicate_one, List.flatten_singleton, List.take_of_length_le hshort, Nat.one_mul]
      exact ⟨rfl, rfl⟩

/-- **One call on a faithful channel** leaves it faithful exactly when it is in order. -/
theorem Faithful.step {s s' : Channel} {op : DccOp}
    (hi : s.dcc.fair = true ∧ Reads s.dcc s.taken) (h : Faithful s)
    (hs : channelStep s op = some s') :
    (s'.dcc.fair = true ∧ Reads s'.dcc s'.taken) ∧ (Faithful s' ↔ op.Ok) := by
  have hempty : s.dcc.announced.count [] = 0 := by
    have h₁ := hi.2.back
    have h₂ := h.back
    omega
  -- what was announced is handed back when none of it is empty
  have hback : ∀ t : Dcc, ∀ taken ws, Reads t taken →
      t.announced = s.dcc.announced ++ ws.flatMap (fun w => (w.bind HostWord.bytes).toList) →
      (acks t.sent + (if t.htodIndex > 0 then 1 else 0) = t.announced.length ↔ NoEmpty ws) := by
    intro t taken ws ht hann
    have := ht.back
    rw [← count_announced]
    rw [hann, List.count_append, hempty] at this
    rw [hann]
    omega
  cases op with
  | write data ws =>
    rw [channelStep] at hs
    rcases hw : dccWrite data ws s.dcc 0 with _ | ⟨d, r, _ | ⟨w, ws'⟩⟩
    · rw [hw] at hs
      cases hs
    · rw [hw] at hs
      dsimp only at hs
      split_ifs at hs with hfair
      cases hs
      obtain ⟨-, hreads, ⟨k, rfl, hge, hk, hhost⟩, used, hused, hann⟩ :=
        dccWrite_spec (fun _ => hi.2) (.inr rfl) hw hfair
      rw [List.append_nil] at hused
      subst hused
      rw [Nat.zero_add] at hge hk hw ⊢
      refine ⟨⟨hfair, hreads⟩, ?_⟩
      rw [DccOp.Ok, ← repeats_iff hge hk, ← hback d _ _ hreads hann]
      have hflat : (toHost d.sent).flatten =
          s.written ++ (List.replicate k (data.take dccBuflen)).flatten := by
        rw [hhost, List.flatten_append, h.host]
      constructor
      · rintro ⟨h₁, h₂, -, h₄⟩
        dsimp only at h₁ h₂
        rw [hflat] at h₁
        rw [h.calls, Bool.true_and, decide_eq_true_iff] at h₂
        exact ⟨⟨List.append_cancel_left h₁, Option.some.inj h₂⟩, h₄⟩
      · rintro ⟨⟨h₁, h₂⟩, h₄⟩
        refine ⟨by dsimp only; rw [hflat, h₁], ?_, hreads.bytes, h₄⟩
        dsimp only
        rw [h.calls, h₂]
        simp
    · rw [hw] at hs
      cases hs
  | read len ws =>
    rw [channelStep] at hs
    rcases hw : dccRead ws s.dcc len with _ | ⟨d, r, _ | ⟨w, ws'⟩⟩
    · rw [hw] at hs
      cases hs
    · rw [hw] at hs
      dsimp only at hs
      split_ifs at hs with hfair
      cases hs
      obtain ⟨-, b, rfl, hlen, hreads, hhost, used, hused, hann⟩ :=
        dccRead_spec (fun _ => hi.2) hw hfair
      rw [List.append_nil] at hused
      subst hused
      refine ⟨⟨hfair, hreads⟩, ?_⟩
      rw [DccOp.Ok, ← hback d _ _ hreads hann]
      constructor
      · exact fun h => h.back
      · intro h₄
        refine ⟨by dsimp only; rw [hhost, h.host], ?_, hreads.bytes, h₄⟩
        dsimp only
        rw [h.calls, Option.map_some, hlen]
        simp
    · rw [hw] at hs
      cases hs

/-- **Where the channel is faithful.**  In every run of calls of `dcc_write` and `dcc_read` with
any data and lengths, over any words of a host that keeps to its part, both directions carry
exactly the bytes given, throughout the run, exactly when what is written fits one buffer or
repeats it, and the host announces no empty buffers. -/
theorem dcc_faithful_iff {htodBuffer dtohBuffer : ℕ → UInt8} {ops : List DccOp} {s' : Channel}
    (h : run channelStep (Channel.start htodBuffer dtohBuffer) ops = some s') :
    Throughout channelStep Faithful (Channel.start htodBuffer dtohBuffer) ops ↔
      Along channelStep (fun _ op => op.Ok) (Channel.start htodBuffer dtohBuffer) ops :=
  @throughout_iff_along _ _ _ _ (fun s => s.dcc.fair = true ∧ Reads s.dcc s.taken) _
    (fun _ _ _ hi hf hs => hf.step hi hs) ops _ s'
    ⟨rfl, .inl ⟨rfl, rfl⟩, rfl, rfl⟩ ⟨rfl, rfl, rfl, rfl⟩ h

/-- Two bytes are written and handed back, and three are read out of two buffers of the host,
the second of which is used up by the call after. -/
def twoBuffers : List DccOp :=
  [.write [7, 8] [some .consumedIn],
    .read 3 [none, some (.updateOutIndex 2 fun _ => 9), some (.updateOutIndex 2 fun _ => 4)],
    .read 1 [none]]

/-- All bytes cross the channel in order, also over the end of a buffer. -/
theorem dcc_faithful_iff_bytes :
    Throughout channelStep Faithful (Channel.start (fun _ => 0) fun _ => 0) twoBuffers ∧
      (run channelStep (Channel.start (fun _ => 0) fun _ => 0) twoBuffers).map Channel.taken =
        some [9, 9, 4, 4] := by
  refine ⟨(dcc_faithful_iff rfl).2 (along_of_forall _ fun op hop => ?_), rfl⟩
  simp only [twoBuffers, List.mem_cons, List.not_mem_nil, or_false] at hop
  rcases hop with rfl | rfl | rfl
  · exact ⟨.inl (by decide), by simp [NoEmpty, HostWord.bytes]⟩
  · simp [DccOp.Ok, NoEmpty, HostWord.bytes, window]
  · simp [DccOp.Ok, NoEmpty]

/-- 257 bytes arrive as 512, the first 256 of them twice. -/
theorem dcc_write_repeats :
    ¬ ∀ (ops : List DccOp) (s' : Channel), (∀ op ∈ ops, NoEmpty op.words) →
      run channelStep (Channel.start (fun _ => 0) fun _ => 0) ops = some s' →
        Throughout channelStep Faithful (Channel.start (fun _ => 0) fun _ => 0) ops := by
  intro h
  obtain ⟨s', hs'⟩ := Option.isSome_iff_exists.1
    (by decide +kernel : (channelStep (Channel.start (fun _ => 0) fun _ => 0)
      (.write (List.replicate 257 7) [some .consumedIn, some .consumedIn])).isSome)
  have hwords : NoEmpty [some .consumedIn, some .consumedIn] := by
    simp [NoEmpty, HostWord.bytes]
  have hall := h [.write (List.replicate 257 7) [some .consumedIn, some .consumedIn]] s'
    (fun op hop => by rw [List.mem_singleton.1 hop]; exact hwords) (by rw [run, hs']; rfl)
  have hok := (Faithful.step ⟨rfl, .inl ⟨rfl, rfl⟩, rfl, rfl⟩ hall.1 hs').2.1 (hall.2 _ hs')
  rcases hok.1 with hle | heq
  · rw [List.length_replicate] at hle
    exact absurd hle (by decide)
  · exact absurd (congrArg List.length heq) (by decide +kernel)

end Lkboot
end LittleKernel
