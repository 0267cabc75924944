/-
# The data framing of lkboot

`app/lkboot/lkboot.c`: `lkb_send`, `lkb_write` and `lkb_read`, over the hooks of a transport.
A message is a header (opcode, a spare byte, a length of 16 bits, little-endian) and its
payload; the length of `MSG_SEND_DATA` is that of the payload minus one.

The host cuts a byte stream into such messages and ends it with `MSG_END_DATA`; the device
asks for it in calls of any lengths.  What is left of a message stays in `avail` between calls,
so the two ways to cut the stream do not matter (`lkbReadLoop_spec`).

Two things do.  `lkb_send` compares what the transport took of a header with `sizeof(&hdr)`,
the size of a pointer, so on a 64-bit build every message fails; and once the end of the data
was met, `lkb_read` returns 0 without any bytes, whatever it is asked for
(`lkb_framing_iff`).
-/

import LittleKernel.Lib.Bytes
import LittleKernel.Lib.Machine
import LittleKernel.Lib.Word

namespace LittleKernel
namespace Lkboot

open Bytes Word Machine

/-- The opcodes of `lkboot_protocol.h`. -/
def msgOkay : UInt8 := 0x00
def msgFail : UInt8 := 0xFF
def msgLog : UInt8 := 0xFE
def msgGoAhead : UInt8 := 0x01
def msgSendData : UInt8 := 0x41
def msgEndData : UInt8 := 0x42

/-- `STATE_OPEN` and the others. -/
inductive State where
  | opened
  | data
  | resp
  | done
  | error
  deriving DecidableEq

/-- A `lkb_t` with its transport: the bytes the host sends, and the buffers handed to the
write hook. -/
structure Lkb where
  state : State
  avail : ℕ
  input : List UInt8
  sent : List (List UInt8)
  deriving DecidableEq

/-- `lkb->read`, which fails when the host sends no more. -/
def Lkb.read (s : Lkb) (n : ℕ) : Option (List UInt8 × Lkb) :=
  if n ≤ s.input.length then some (s.input.take n, { s with input := s.input.drop n }) else none

/-- A header with `length`. -/
def msgHdr (opcode : UInt8) (length : ℕ) : List UInt8 := opcode :: 0 :: le 2 length

@[simp] theorem headD_msgHdr (opcode : UInt8) (length : ℕ) :
    (msgHdr opcode length).headD 0 = opcode := rfl

@[simp] theorem length_msgHdr (opcode : UInt8) (length : ℕ) :
    (msgHdr opcode length).length = 4 := rfl

/-- What a transport that accepts everything returns. -/
def acceptAll (l : List UInt8) : ℤ := l.length

section Send

variable (ptrSize : ℕ) (write : List UInt8 → ℤ)

/-- The second half of `lkb_send`; the header is compared with `sizeof(&hdr)`. -/
def lkbXmit (s : Lkb) (opcode : UInt8) (data : List UInt8) : Lkb × Bool :=
  let hdr := msgHdr opcode (if opcode = msgSendData then sub64 data.length 1 else data.length)
  let s := { s with sent := s.sent ++ [hdr] }
  if write hdr ≠ ptrSize then ({ s with state := .error }, false)
  else if data.length = 0 then (s, true)
  else
    let s := { s with sent := s.sent ++ [data] }
    if write data ≠ data.length then ({ s with state := .error }, false) else (s, true)

/-- "internal error". -/
def internalError : List UInt8 := "internal error".toList.map fun c => UInt8.ofNat c.toNat

/-- `lkb_send`: whether it returns 0. -/
def lkbSend (s : Lkb) (opcode : UInt8) (data : List UInt8) : Lkb × Bool :=
  if s.state = .done ∨ s.state = .error then (s, false)
  else if opcode = msgOkay ∨ opcode = msgFail then
    if data.length > 0xFFFF then ({ s with state := .done }, false)
    else lkbXmit ptrSize write { s with state := .done } opcode data
  else if opcode = msgLog then
    if data.length > 0xFFFF then (s, false) else lkbXmit ptrSize write s opcode data
  else if opcode = msgSendData then
    if data.length > 0x10000 then (s, false) else lkbXmit ptrSize write s opcode data
  else if opcode = msgGoAhead ∧ s.state = .opened then
    lkbXmit ptrSize write { s with state := .data } opcode data
  else lkbXmit ptrSize write { s with state := .error } msgFail internalError

/-- The loop of `lkb_write`. -/
def lkbWriteLoop : ℕ → Lkb → List UInt8 → Lkb × Bool
  | 0, s, data => (s, data.length = 0)
  | fuel + 1, s, data =>
    if data.length = 0 then (s, true)
    else
      let r := lkbSend ptrSize write s msgSendData (data.take 65536)
      if ¬ r.2 then (r.1, false) else lkbWriteLoop fuel r.1 (data.drop 65536)

/-- `lkb_write`: whether it returns 0. -/
def lkbWrite (s : Lkb) (data : List UInt8) : Lkb × Bool :=
  lkbWriteLoop ptrSize write (data.length / 65536 + 1) s data

/-- `lkb_read` where nothing of a message is left: the next header. -/
def lkbHeader (s : Lkb) : Lkb × Bool :=
  if s.avail ≠ 0 then (s, true)
  else
    match s.read 4 with
    | none => ({ s with state := .error }, false)
    | some (hdr, s) =>
      if hdr.headD 0 = msgEndData then ({ s with state := .resp }, false)
      else if hdr.headD 0 ≠ msgSendData then ({ s with state := .error }, false)
      else ({ s with avail := ofLe (hdr.drop 2) + 1 }, true)

/-- The loop of `lkb_read`, with `len` bytes to go: each round takes one at least. -/
def lkbReadLoop : ℕ → Lkb → ℕ → Lkb × Option (List UInt8)
  | 0, s, len => (s, if len = 0 then some [] else none)
  | fuel + 1, s, len =>
    if len = 0 then (s, some [])
    else
      match lkbHeader s with
      | (s, false) => (s, none)
      | (s, true) =>
        if s.avail ≥ len then
          match s.read len with
          | none => ({ s with state := .error }, none)
          | some (d, s) => ({ s with avail := s.avail - len }, some d)
        else
          match s.read s.avail with
          | none => ({ s with state := .error }, none)
          | some (d, s') =>
            let r := lkbReadLoop fuel { s' with avail := 0 } (len - s.avail)
            (r.1, r.2.map (d ++ ·))

/-- `lkb_read`: the bytes it stores, where it returns 0. -/
def lkbRead (s : Lkb) (len : ℕ) : Lkb × Option (List UInt8) :=
  if s.state = .resp then (s, some [])
  else if s.state = .opened then
    let r := lkbSend ptrSize write s msgGoAhead []
    if ¬ r.2 then (r.1, none) else lkbReadLoop len r.1 len
  else lkbReadLoop len s len

end Send

/-! ### Reading -/

/-- A `MSG_SEND_DATA` message of the host. -/
structure Message where
  payload : List UInt8
  pos : 0 < payload.length
  le_max : payload.length ≤ 65536

def Message.bytes (m : Message) : List UInt8 :=
  msgHdr msgSendData (m.payload.length - 1) ++ m.payload

/-- The stream that the host cuts into messages, and how it sends it. -/
def stream (msgs : List Message) : List UInt8 := msgs.flatMap Message.payload
def wire (msgs : List Message) : List UInt8 := msgs.flatMap Message.bytes ++ msgHdr msgEndData 0

/-- The stream has `rest` left: what is available of a message, and the messages to come. -/
def Framed (s : Lkb) (rest : List UInt8) : Prop :=
  ∃ cur msgs later, cur.length = s.avail ∧ s.input = cur ++ (wire msgs ++ later) ∧
    rest = cur ++ stream msgs

variable {ptrSize : ℕ} {s : Lkb} {rest data : List UInt8}

theorem Lkb.read_append (s : Lkb) {l m : List UInt8} (h : s.input = l ++ m) :
    s.read l.length = some (l, { s with input := m }) := by
  rw [Lkb.read, if_pos (by rw [h, List.length_append]; omega), h, List.take_left, List.drop_left]

/-- The header of the next message is taken, or that of the end. -/
theorem lkbHeader_spec (h : Framed s rest) :
    (rest = [] ∧ (lkbHeader s).2 = false ∧ (lkbHeader s).1.state = .resp) ∨
      rest ≠ [] ∧ (lkbHeader s).2 = true ∧ (lkbHeader s).1.avail ≠ 0 ∧
        (lkbHeader s).1.state = s.state ∧ Framed (lkbHeader s).1 rest := by
  obtain ⟨cur, msgs, later, hcur, hin, hrest⟩ := h
  rw [lkbHeader]
  by_cases ha : s.avail = 0
  · rw [if_neg (by simpa using ha)]
    obtain rfl := List.length_eq_zero_iff.1 (hcur.trans ha)
    rw [List.nil_append] at hin hrest
    cases msgs with
    | nil =>
      have hread := s.read_append (l := msgHdr msgEndData 0) (m := later) (by rw [hin]; rfl)
      rw [length_msgHdr] at hread
      refine .inl ⟨hrest, ?_⟩
      rw [hread]
      dsimp only
      rw [if_pos (by rfl)]
      exact ⟨rfl, rfl⟩
    | cons m msgs =>
      have hread := s.read_append (l := msgHdr msgSendData (m.payload.length - 1))
        (m := m.payload ++ (wire msgs ++ later))
        (by rw [hin]; simp only [wire, Message.bytes, List.flatMap_cons, List.append_assoc])
      rw [length_msgHdr] at hread
      have hlen : ofLe ((msgHdr msgSendData (m.payload.length - 1)).drop 2) + 1 =
          m.payload.length := by
        have := m.pos
        have := m.le_max
        rw [show (msgHdr msgSendData (m.payload.length - 1)).drop 2 =
          le 2 (m.payload.length - 1) by rfl, ofLe_le_of_lt (by omega)]
        omega
      have hne : rest ≠ [] := by
        have := m.pos
        rw [hrest]
        intro h0
        have := congrArg List.length h0
        simp only [stream, List.flatMap_cons, List.length_append, List.length_nil] at this
        omega
      rw [hread]
      dsimp only
      rw [headD_msgHdr, if_neg (by decide), if_neg (not_not.2 rfl), hlen]
      exact .inr ⟨hne, rfl, Nat.pos_iff_ne_zero.1 m.pos, rfl, m.payload, msgs, later, rfl, rfl,
        by rw [hrest]; rfl⟩
  · rw [if_pos ha]
    refine .inr ⟨?_, rfl, ha, rfl, cur, msgs, later, hcur, hin, hrest⟩
    intro h0
    rw [hrest] at h0
    have := congrArg List.length (List.append_eq_nil_iff.1 h0).1
    rw [List.length_nil] at this
    omega

/-- **The loop of `lkb_read` does not see where messages begin:** it returns the next `len`
bytes where there are so many, and else meets the end. -/
theorem lkbReadLoop_spec {fuel len : ℕ} (h : Framed s rest) (hfuel : len ≤ fuel) :
    if len ≤ rest.length then
      (lkbReadLoop fuel s len).2 = some (rest.take len) ∧
        (lkbReadLoop fuel s len).1.state = s.state ∧
          Framed (lkbReadLoop fuel s len).1 (rest.drop len)
    else (lkbReadLoop fuel s len).2 = none ∧ (lkbReadLoop fuel s len).1.state = .resp := by
  induction fuel generalizing len s rest with
  | zero =>
    obtain rfl : len = 0 := by omega
    rw [if_pos (Nat.zero_le _), List.take_zero, List.drop_zero]
    exact ⟨rfl, rfl, h⟩
  | succ fuel ih =>
    rw [lkbReadLoop]
    by_cases hlen : len = 0
    · subst hlen
      rw [if_pos (Nat.zero_le _), if_pos rfl, List.take_zero, List.drop_zero]
      exact ⟨rfl, rfl, h⟩
    rw [if_neg hlen]
    rcases lkbHeader_spec h with ⟨hrest, hret, hstate⟩ | ⟨hrest, hret, havail, hstate, hframed⟩
    · rw [show lkbHeader s = ((lkbHeader s).1, false) from Prod.ext rfl hret, hrest,
        if_neg (by rw [List.length_nil]; omega)]
      exact ⟨rfl, hstate⟩
    rw [show lkbHeader s = ((lkbHeader s).1, true) from Prod.ext rfl hret, ← hstate]
    generalize (lkbHeader s).1 = t at *
    obtain ⟨cur, msgs, later, hcur, hin, hrest'⟩ := hframed
    have hrlen : rest.length = t.avail + (stream msgs).length := by
      rw [hrest', List.length_append, hcur]
    by_cases hge : t.avail ≥ len
    · -- the message holds all that is asked for
      have hread := t.read_append (l := cur.take len) (m := cur.drop len ++ (wire msgs ++ later))
        (by rw [hin, ← List.append_assoc (cur.take len), List.take_append_drop])
      rw [List.length_take, Nat.min_eq_left (by omega)] at hread
      have htake : rest.take len = cur.take len := by
        rw [hrest', List.take_append_of_le_length (by omega)]
      have hdrop : rest.drop len = cur.drop len ++ stream msgs := by
        rw [hrest', List.drop_append_of_le_length (by omega)]
      dsimp only
      rw [if_pos hge, hread, if_pos (by omega), htake, hdrop]
      exact ⟨rfl, rfl, cur.drop len, msgs, later, by rw [List.length_drop, hcur], rfl, rfl⟩
    · have hread := t.read_append (l := cur) (m := wire msgs ++ later) hin
      rw [hcur] at hread
      have hnext : Framed { t with input := wire msgs ++ later, avail := 0 } (stream msgs) :=
        ⟨[], msgs, later, rfl, rfl, rfl⟩
      have hrec := ih hnext (show len - t.avail ≤ fuel by omega)
      dsimp only
      rw [if_neg hge, hread]
      dsimp only
      by_cases hle : len ≤ rest.length
      · rw [if_pos (by omega)] at hrec
        obtain ⟨h₁, h₂, h₃⟩ := hrec
        have htake : rest.take len = cur ++ (stream msgs).take (len - t.avail) := by
          rw [hrest', List.take_append, List.take_of_length_le (by omega), hcur]
        have hdrop : rest.drop len = (stream msgs).drop (len - t.avail) := by
          rw [hrest', List.drop_append, List.drop_of_length_le (by omega), hcur,
            List.nil_append]
        rw [if_pos hle, h₁, htake, hdrop]
        exact ⟨rfl, h₂, h₃⟩
      · rw [if_neg (by omega)] at hrec
        rw [if_neg hle, hrec.1]
        exact ⟨rfl, hrec.2⟩

/-! ### Calls of `lkb_read` -/

/-- The connection, what successful calls have not returned of the stream yet, and whether
every call so far did what it should. -/
structure Reader where
  lkb : Lkb
  rest : List UInt8
  right : Bool

/-- What a call for `len` bytes should come to: the next `len` bytes, or a failure where there
are not so many. -/
def Served (rest : List UInt8) (len : ℕ) (r : Option (List UInt8)) : Prop :=
  r = if len ≤ rest.length then some (rest.take len) else none

instance (rest : List UInt8) (len : ℕ) (r : Option (List UInt8)) : Decidable (Served rest len r) :=
  inferInstanceAs (Decidable (_ = _))

/-- One call. -/
def readStep (ptrSize : ℕ) (s : Reader) (len : ℕ) : Option Reader :=
  let r := lkbRead ptrSize acceptAll s.lkb len
  some
    { lkb := r.1
      rest := if r.2.isSome then s.rest.drop len else s.rest
      right := s.right && decide (Served s.rest len r.2) }

/-- A command has started and the host sends the stream in these messages. -/
def Reader.start (msgs : List Message) (later : List UInt8) : Reader :=
  { lkb := ⟨.opened, 0, wire msgs ++ later, []⟩, rest := stream msgs, right := true }

/-- The stream is where `lkb_read` looks for it, or its end was met. -/
def Reader.Inv (s : Reader) : Prop := s.lkb.state = .resp ∨ Framed s.lkb s.rest

/-- No bytes are asked for once the end was met, and the first call, which sends
`MSG_GO_AHEAD`, is on a 32-bit build or one that has to fail. -/
def Reader.Ok (ptrSize : ℕ) (s : Reader) (len : ℕ) : Prop :=
  (s.lkb.state = .resp → len = 0) ∧
    (s.lkb.state = .opened → ptrSize = 4 ∨ s.rest.length < len)

/-- `MSG_GO_AHEAD` goes out, and is taken for a failure where a pointer has not four bytes. -/
theorem lkbSend_goAhead (h : s.state = .opened) :
    (lkbSend ptrSize acceptAll s msgGoAhead []).2 = decide (ptrSize = 4) ∧
      (lkbSend ptrSize acceptAll s msgGoAhead []).1 =
        { s with
          state := if ptrSize = 4 then .data else .error
          sent := s.sent ++ [msgHdr msgGoAhead 0] } := by
  have hsend : lkbSend ptrSize acceptAll s msgGoAhead [] =
      lkbXmit ptrSize acceptAll { s with state := .data } msgGoAhead [] := by
    rw [lkbSend, if_neg (by rw [h]; decide), if_neg (by decide), if_neg (by decide),
      if_neg (by decide), if_pos ⟨rfl, h⟩]
  rw [hsend, lkbXmit]
  by_cases hp : ptrSize = 4
  · subst hp
    exact ⟨rfl, rfl⟩
  · have hne : acceptAll (msgHdr msgGoAhead 0) ≠ ptrSize := by
      rw [show acceptAll (msgHdr msgGoAhead 0) = 4 by rfl]
      omega
    rw [if_neg hp, decide_eq_false hp]
    dsimp only
    rw [if_neg (show ¬ msgGoAhead = msgSendData by decide)]
    exact ⟨congrArg Prod.snd (if_pos hne), congrArg Prod.fst (if_pos hne)⟩

/-- The loop as one call. -/
theorem lkbReadLoop_served (h : Framed s rest) (len : ℕ) :
    Served rest len (lkbReadLoop len s len).2 ∧
      ((lkbReadLoop len s len).1.state = .resp ∨ Framed (lkbReadLoop len s len).1
        (if (lkbReadLoop len s len).2.isSome then rest.drop len else rest)) := by
  have hspec := lkbReadLoop_spec h (Nat.le_refl len)
  by_cases hle : len ≤ rest.length
  · rw [if_pos hle] at hspec
    obtain ⟨h₁, h₂, h₃⟩ := hspec
    rw [Served, if_pos hle, h₁]
    exact ⟨rfl, .inr h₃⟩
  · rw [if_neg hle] at hspec
    rw [Served, if_neg hle]
    exact ⟨hspec.1, .inl hspec.2⟩

/-- **One call of `lkb_read`** does what it should exactly when the step is in order. -/
theorem Reader.Inv.step {s s' : Reader} {len : ℕ} (hi : s.Inv) (hr : s.right = true)
    (h : readStep ptrSize s len = some s') : s'.Inv ∧ (s'.right = true ↔ s.Ok ptrSize len) := by
  cases h
  have hright : (s.right && decide (Served s.rest len (lkbRead ptrSize acceptAll s.lkb len).2)) =
      true ↔ Served s.rest len (lkbRead ptrSize acceptAll s.lkb len).2 := by
    rw [hr, Bool.true_and, decide_eq_true_iff]
  unfold Reader.Inv Reader.Ok
  dsimp only
  rw [hright]
  by_cases hresp : s.lkb.state = .resp
  · -- the end was met: nothing is stored, and 0 returned
    have hread : lkbRead ptrSize acceptAll s.lkb len = (s.lkb, some []) := if_pos hresp
    rw [hread, Served]
    refine ⟨.inl hresp, ?_⟩
    dsimp only
    rw [hresp]
    constructor
    · intro hs
      refine ⟨fun _ => ?_, fun h => by cases h⟩
      split_ifs at hs with hle
      have hlen := congrArg List.length (Option.some.inj hs)
      rw [List.length_nil, List.length_take] at hlen
      omega
    · rintro ⟨hzero, -⟩
      rw [hzero rfl, if_pos (Nat.zero_le _), List.take_zero]
  have hframed : Framed s.lkb s.rest := hi.resolve_left hresp
  by_cases hopen : s.lkb.state = .opened
  · obtain ⟨hret, hlkb⟩ := @lkbSend_goAhead ptrSize _ hopen
    have hread : lkbRead ptrSize acceptAll s.lkb len =
        if ¬ (lkbSend ptrSize acceptAll s.lkb msgGoAhead []).2 then
          ((lkbSend ptrSize acceptAll s.lkb msgGoAhead []).1, none)
        else lkbReadLoop len (lkbSend ptrSize acceptAll s.lkb msgGoAhead []).1 len := by
      rw [lkbRead, if_neg hresp, if_pos hopen]
    have hframed' : Framed (lkbSend ptrSize acceptAll s.lkb msgGoAhead []).1 s.rest := by
      rw [hlkb]
      exact hframed
    by_cases hp : ptrSize = 4
    · rw [if_neg (by rw [hret, decide_eq_true hp]; simp)] at hread
      rw [hread]
      obtain ⟨hserved, hinv⟩ := lkbReadLoop_served hframed' len
      exact ⟨hinv, iff_of_true hserved ⟨fun h => absurd h hresp, fun _ => .inl hp⟩⟩
    · rw [if_pos (by rw [hret, decide_eq_false hp]; simp)] at hread
      rw [hread]
      refine ⟨.inr hframed', ?_⟩
      rw [Served]
      constructor
      · intro hs
        refine ⟨fun h => absurd h hresp, fun _ => .inr ?_⟩
        by_contra hle
        rw [if_pos (by omega)] at hs
        cases hs
      · rintro ⟨-, h⟩
        have hlt := (h hopen).resolve_left hp
        rw [if_neg (by omega)]
  · have hread : lkbRead ptrSize acceptAll s.lkb len = lkbReadLoop len s.lkb len := by
      rw [lkbRead, if_neg hresp, if_neg hopen]
    rw [hread]
    obtain ⟨hserved, hinv⟩ := lkbReadLoop_served hframed len
    exact ⟨hinv, iff_of_true hserved ⟨fun h => absurd h hresp, fun h => absurd h hopen⟩⟩

/-! ### Writing -/

/-- The buffers of a message. -/
def Message.buffers (m : Message) : List (List UInt8) :=
  [msgHdr msgSendData (m.payload.length - 1), m.payload]

/-- `lkb_write` succeeds and emits messages whose payloads are the data. -/
def Written (ptrSize : ℕ) (s : Lkb) (data : List UInt8) : Prop :=
  (lkbWrite ptrSize acceptAll s data).2 = true ∧
    ∃ msgs, stream msgs = data ∧
      (lkbWrite ptrSize acceptAll s data).1.sent = s.sent ++ msgs.flatMap Message.buffers

theorem lkbSend_data (m : Message) (hs : s.state ≠ .done ∧ s.state ≠ .error) :
    lkbSend 4 acceptAll s msgSendData m.payload =
      ({ s with sent := s.sent ++ m.buffers }, true) := by
  have hpos := m.pos
  have hle := m.le_max
  have hlen : sub64 m.payload.length 1 = m.payload.length - 1 := sub64_of_le (by omega) hpos
  rw [lkbSend, if_neg (by simpa using hs), if_neg (by decide), if_neg (by decide), if_pos rfl,
    if_neg (by omega), lkbXmit, if_pos rfl, hlen, if_neg (not_not.2 (by rfl)), if_neg (by omega),
    if_neg (not_not.2 (by rfl))]
  simp only [Message.buffers, List.append_assoc, List.cons_append, List.nil_append]

theorem lkbWriteLoop_spec {fuel : ℕ}
    (hs : s.state ≠ .done ∧ s.state ≠ .error) (hfuel : data.length ≤ 65536 * fuel) :
    (lkbWriteLoop 4 acceptAll fuel s data).2 = true ∧ ∃ msgs, stream msgs = data ∧
        (lkbWriteLoop 4 acceptAll fuel s data).1.sent = s.sent ++ msgs.flatMap Message.buffers := by
  induction fuel generalizing s data with
  | zero =>
    have hlen : data.length = 0 := by omega
    exact ⟨decide_eq_true hlen, [], (List.length_eq_zero_iff.1 hlen).symm,
      (List.append_nil _).symm⟩
  | succ fuel ih =>
    rw [lkbWriteLoop]
    by_cases hlen : data.length = 0
    · rw [if_pos hlen]
      exact ⟨rfl, [], (List.length_eq_zero_iff.1 hlen).symm, (List.append_nil _).symm⟩
    rw [if_neg hlen]
    let m : Message := ⟨data.take 65536, by rw [List.length_take]; omega,
      by rw [List.length_take]; omega⟩
    have hsend : lkbSend 4 acceptAll s msgSendData (data.take 65536) =
        ({ s with sent := s.sent ++ m.buffers }, true) := lkbSend_data m hs
    rw [hsend]
    dsimp only
    rw [if_neg (by simp)]
    obtain ⟨hret, msgs, hdata, hsent⟩ := @ih { s with sent := s.sent ++ m.buffers }
      (data.drop 65536) hs (by rw [List.length_drop]; omega)
    refine ⟨hret, m :: msgs, ?_, ?_⟩
    · rw [stream, List.flatMap_cons, ← stream, hdata]
      exact List.take_append_drop 65536 data
    · rw [hsent, List.flatMap_cons, List.append_assoc]

/-- **When `lkb_write` succeeds:** there is nothing to write, or the command is in progress and
a pointer has four bytes. -/
theorem written_iff :
    Written ptrSize s data ↔ data = [] ∨ (s.state ≠ .done ∧ s.state ≠ .error) ∧ ptrSize = 4 := by
  by_cases hdata : data = []
  · subst hdata
    exact iff_of_true ⟨rfl, [], rfl, (List.append_nil _).symm⟩ (.inl rfl)
  have hlen : data.length ≠ 0 := fun h => hdata (List.length_eq_zero_iff.1 h)
  constructor
  · rintro ⟨hret, -⟩
    refine .inr ?_
    rw [lkbWrite, lkbWriteLoop, if_neg hlen] at hret
    have hsend : (lkbSend ptrSize acceptAll s msgSendData (data.take 65536)).2 = true := by
      by_contra hno
      dsimp only at hret
      rw [if_pos hno] at hret
      cases hret
    rw [lkbSend] at hsend
    by_cases hs : s.state = .done ∨ s.state = .error
    · rw [if_pos hs] at hsend
      cases hs <;> cases hsend
    refine ⟨not_or.1 hs, ?_⟩
    rw [if_neg hs, if_neg (by decide), if_neg (by decide), if_pos rfl,
      if_neg (by rw [List.length_take]; omega), lkbXmit] at hsend
    by_contra hp
    have hne : acceptAll (msgHdr msgSendData (if msgSendData = msgSendData then
        sub64 (data.take 65536).length 1 else (data.take 65536).length)) ≠ ptrSize := by
      rw [acceptAll, length_msgHdr]
      omega
    dsimp only at hsend
    rw [if_pos hne] at hsend
    cases hsend
  · rintro (h | ⟨hs, rfl⟩)
    · exact absurd h hdata
    · exact lkbWriteLoop_spec hs (by omega)

/-! ## The framing -/

/-- **Where the framing is transparent.**  For every stream, every way to cut it into messages
and every sequence of calls of `lkb_read`, each call succeeds exactly when the stream has so
many bytes left and then returns the next ones, throughout the run, exactly when nothing is
asked for behind the end and the first call is on a 32-bit build (or asks for more than there
is).  And `lkb_write` over a transport that accepts everything succeeds and sends the data as
the payloads of messages exactly when there are none, or the command is in progress on a 32-bit
build. -/
theorem lkb_framing_iff (ptrSize : ℕ) :
    (∀ msgs later lens, Throughout (readStep ptrSize) (fun s => s.right = true)
        (Reader.start msgs later) lens ↔
      Along (readStep ptrSize) (Reader.Ok ptrSize) (Reader.start msgs later) lens) ∧
    ∀ s data, Written ptrSize s data ↔
      data = [] ∨ (s.state ≠ .done ∧ s.state ≠ .error) ∧ ptrSize = 4 := by
  refine ⟨fun msgs later lens => ?_, fun s data => written_iff⟩
  have htotal : ∀ s len, ∃ s', readStep ptrSize s len = some s' := fun s len => ⟨_, rfl⟩
  obtain ⟨s', hs'⟩ := run_total htotal lens (Reader.start msgs later)
  exact @throughout_iff_along _ _ _ _ Reader.Inv _ (fun s len s' hi hr h => hi.step hr h) lens _ s'
    (.inr ⟨[], msgs, later, rfl, rfl, rfl⟩) rfl hs'

/-- A message of one byte, read on a 64-bit build, and a byte that is asked for behind the
end on a 32-bit build. -/
theorem lkb_framing_fails :
    ¬ (∀ ptrSize ∈ [4, 8], (∀ msgs later lens,
        Throughout (readStep ptrSize) (fun s => s.right = true) (Reader.start msgs later) lens) ∧
      ∀ s data, s.state = .opened → Written ptrSize s data) := by
  intro h
  have := ((h 8 (by decide)).1 [⟨[1], by decide, by decide⟩] [] [1]).2 _ rfl
  exact absurd this (by decide)

end Lkboot
end LittleKernel
