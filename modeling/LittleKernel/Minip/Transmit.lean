/-
# The sending side of a TCP connection: `lib/minip/tcp.c`

`tcp_write` copies the caller's bytes behind those already in `tx_buffer` and
`tcp_write_pending_data` sends what was not sent yet, in segments of at most
`mss` bytes.  Bytes stay in the buffer until `handle_ack` sees them
acknowledged; then the rest moves to the front.  `tcp_retransmit` sends the
front of the buffer again.  Three sequence numbers modulo `2 ^ 32` go with it:
`tx_win_low` of the first byte in the buffer, `tx_highest_seq` of the next byte
to send, and `tx_win_high`, the right edge of the window of the peer.

A connection is seen from its byte stream: `accepted` are the bytes `tcp_write`
took, `acked` of them are acknowledged and `iss` is the sequence number of the
first.  `Sends` is the invariant that ties the counters and the buffer to the
stream, and `transmit_stream_intact` reads off it that every segment carries the
bytes its sequence number stands for, whatever the peer acknowledges.

`TcpSocket` has both halves, since whatever is sent carries the right edge of
the receive window too.  A step is one critical section under `s->lock`, and
`none` is a `DEBUG_ASSERT` that stops the machine or a loop that does not end.
Segments without data and without `FIN` are not recorded, a timeout may come at
any time, and whether the network delivers a segment is left open.
-/

import LittleKernel.Minip.Tcp

namespace LittleKernel
namespace Tcp

open Word

/-! ### The socket -/

/-- `DEFAULT_TX_BUFFER_SIZE`. -/
def defaultTxBufferSize : ℕ := 8192

/-- `SEQUENCE_GT(a, b)`. -/
def SequenceGt (a b : ℕ) : Prop := 0 < int32 (sub32 a b)

instance (a b : ℕ) : Decidable (SequenceGt a b) := inferInstanceAs (Decidable (0 < _))

/-- `tcp_socket_t`, its sending half; `txEvent` is the `signaled` flag. -/
structure Sender where
  txWinLow : ℕ
  txWinHigh : ℕ
  txHighestSeq : ℕ
  txBuffer : ℕ → UInt8
  txBufferSize : ℕ
  txBufferOffset : ℕ
  txEvent : Bool

/-- `tcp_socket_t`. -/
structure TcpSocket where
  rx : Socket
  tx : Sender

/-- A segment with data or `FIN` that went out. -/
structure Sent where
  sequence : ℕ
  data : List UInt8
  fin : Bool
  deriving DecidableEq

/-- `tcp_socket_send`, with data or `FIN`. -/
def TcpSocket.tcpSocketSend (s : TcpSocket) (data : List UInt8) (fin : Bool) (sequence : ℕ) :
    TcpSocket × Sent :=
  ({ s with rx := Tcp.tcpSocketSend s.rx }, ⟨sequence, data, fin⟩)

/-! ### Acknowledgements -/

/-- `handle_ack`. -/
def handleAck (lvl : ℕ) (tx : Sender) (sequence winSize : ℕ) : Option Sender :=
  if SequenceLte sequence tx.txWinLow then some tx
  else if SequenceGt sequence tx.txHighestSeq then some tx
  else
    let ackedLen := sub32 sequence tx.txWinLow
    if DebugAssert lvl (ackedLen ≤ tx.txBufferSize) ∧
        DebugAssert lvl (ackedLen ≤ tx.txBufferOffset) then
      let left := sub32 tx.txBufferOffset ackedLen
      let low := u32 (tx.txWinLow + ackedLen)
      some { tx with
        txBuffer := Memory.copy tx.txBuffer 0 tx.txBuffer ackedLen left
        txBufferOffset := left
        txWinLow := low
        txWinHigh := u32 (low + winSize)
        txEvent := true }
    else none

/-- A packet with the fields that only the sending half reads. -/
structure TcpPacket extends Packet where
  ackNum : UInt32
  winSize : UInt16

/-- The states in which `tcp_input` hands an acknowledgement to `handle_ack`. -/
def TcpSocket.Acks (s : TcpSocket) (p : TcpPacket) : Prop :=
  p.rst = false ∧ p.ack = true ∧ (s.rx.state = .established ∨ s.rx.state = .closeWait)

instance (s : TcpSocket) (p : TcpPacket) : Decidable (s.Acks p) :=
  inferInstanceAs (Decidable (_ ∧ _))

/-- `tcp_input`: the acknowledgement first, then what `Tcp.tcpInput` does; the writers
wake up when the peer resets the connection. -/
def TcpSocket.tcpInput (w lvl : ℕ) (s : TcpSocket) (p : TcpPacket) : Option TcpSocket :=
  (if s.Acks p then handleAck lvl s.tx p.ackNum.toNat p.winSize.toNat else some s.tx).bind fun tx =>
    (Tcp.tcpInput w lvl s.rx p.toPacket).map fun rx =>
      ⟨rx, if rx.state = .closed ∧ s.rx.state ≠ .closed then { tx with txEvent := true } else tx⟩

/-! ### Sending -/

/-- The loop of `tcp_write_pending_data`, with the segments it sends. -/
def pendingLoop (outstanding pending : ℕ) :
    ℕ → ℕ → TcpSocket → Option (TcpSocket × ℕ × List Sent)
  | 0, offset, s => if offset < pending then none else some (s, offset, [])
  | fuel + 1, offset, s =>
    if offset < pending then
      let tosend := min s.rx.mss (pending - offset)
      let r := s.tcpSocketSend (Memory.window s.tx.txBuffer (outstanding + offset) tosend) false
        s.tx.txHighestSeq
      let highest := u32 (s.tx.txHighestSeq + tosend)
      (pendingLoop outstanding pending fuel (u32 (offset + tosend))
        { r.1 with tx := { s.tx with txHighestSeq := highest } }).map fun q =>
          (q.1, q.2.1, r.2 :: q.2.2)
    else some (s, offset, [])

/-- `tcp_write_pending_data`. -/
def tcpWritePendingData (lvl : ℕ) (s : TcpSocket) : Option (TcpSocket × ℕ × List Sent) :=
  if DebugAssert lvl (0 < s.tx.txBufferSize) ∧
      DebugAssert lvl (s.tx.txBufferOffset ≤ s.tx.txBufferSize) then
    let outstanding := sub32 s.tx.txHighestSeq s.tx.txWinLow
    let pending := sub32 s.tx.txBufferOffset outstanding
    pendingLoop outstanding pending pending 0 s
  else none

/-- What becomes of one pass through the loop of `tcp_write`. -/
inductive WriteAnswer
  /-- The caller sleeps on `tx_event`, or finds the buffer full. -/
  | blocked
  | channelClosed
  | copied (n : ℕ)
  deriving DecidableEq

/-- The number of bytes a pass takes. -/
def WriteAnswer.count : WriteAnswer → ℕ
  | .copied n => n
  | _ => 0

/-- `tcp_write`, one pass through its loop; `rest` are the bytes of the caller from
`off` on. -/
def TcpSocket.tcpWrite (lvl : ℕ) (s : TcpSocket) (rest : List UInt8) :
    Option (TcpSocket × WriteAnswer × List Sent) :=
  if s.tx.txEvent = false then some (s, .blocked, [])
  else if s.rx.state ≠ .established ∧ s.rx.state ≠ .closeWait then some (s, .channelClosed, [])
  else if DebugAssert lvl (0 < s.tx.txBufferSize) ∧
      DebugAssert lvl (s.tx.txBufferOffset ≤ s.tx.txBufferSize) then
    let toCopy := min (sub32 s.tx.txBufferSize s.tx.txBufferOffset) rest.length
    if toCopy = 0 then some (s, .blocked, [])
    else
      let offset := u32 (s.tx.txBufferOffset + toCopy)
      if DebugAssert lvl (offset ≤ s.tx.txBufferSize) then
        let tx := { s.tx with
          txBuffer := Memory.store s.tx.txBuffer s.tx.txBufferOffset (rest.take toCopy)
          txBufferOffset := offset
          txEvent := decide (offset ≠ s.tx.txBufferSize) }
        (tcpWritePendingData lvl { s with tx := tx }).map fun r => (r.1, .copied toCopy, r.2.2)
      else none
  else none

/-- `tcp_retransmit`. -/
def TcpSocket.tcpRetransmit (s : TcpSocket) : TcpSocket × List Sent :=
  if s.rx.state ≠ .established ∧ s.rx.state ≠ .closeWait then (s, [])
  else
    let outstanding := sub32 s.tx.txHighestSeq s.tx.txWinLow
    if outstanding = 0 then (s, [])
    else
      let tosend := min s.rx.mss outstanding
      let r := s.tcpSocketSend (Memory.window s.tx.txBuffer 0 tosend) false s.tx.txWinLow
      (r.1, [r.2])

/-- A socket of `create_tcp_socket` once the peer acknowledged its `SYN` in a packet
with window `win`: the `STATE_SYN_RCVD` branch of `tcp_input`. -/
def establishedSocket (irs iss : ℕ) (win : UInt16) (rxRaw txRaw : ℕ → UInt8) : TcpSocket where
  rx := acceptSocket irs rxRaw
  tx := {
    txWinLow := u32 iss
    txWinHigh := u32 (u32 iss + win.toNat)
    txHighestSeq := u32 iss
    txBuffer := txRaw
    txBufferSize := defaultTxBufferSize
    txBufferOffset := 0
    txEvent := true }

/-! ### Runs -/

/-- What happens to a connection that its owner has not closed. -/
inductive Event
  /-- A packet arrives, with any flags, data and acknowledgement. -/
  | segment (p : TcpPacket)
  /-- A call of `tcp_read`. -/
  | read (len : ℕ)
  /-- A pass through the loop of `tcp_write`. -/
  | write (rest : List UInt8)
  /-- `handle_retransmit_timeout`. -/
  | retransmitTimeout
  /-- `handle_delayed_ack_timeout`. -/
  | ackTimeout

/-- A socket with its stream: the bytes `tcp_write` accepted, how many of them the peer
has acknowledged, the right edge of the window that the peer advertised last, and the
segments sent, each with that number and that edge when it was sent.  The edge is read off
the packets, and `tx_win_high` is what `handle_ack` makes of them. -/
structure Link where
  socket : TcpSocket
  accepted : List UInt8
  acked : ℕ
  edge : ℕ
  sent : List (ℕ × ℕ × Sent)

/-- The bytes acknowledged after an acknowledgement `ackNum`: it counts when it names a
position of the stream that was accepted and not acknowledged. -/
def ackedBy (iss accepted acked ackNum : ℕ) : ℕ :=
  if acked + sub32 ackNum (iss + acked) ≤ accepted then acked + sub32 ackNum (iss + acked)
  else acked

/-- The right edge the peer advertises in a packet that acknowledges `ackNum`, a position
of the stream that is accepted and was not acknowledged before it, or once more the last
one that was; `edge` after any other packet. -/
def advertised (iss accepted acked edge ackNum winSize : ℕ) : ℕ :=
  if acked + sub32 ackNum (iss + acked) ≤ accepted then u32 (ackNum + winSize) else edge

/-- One step. -/
def Link.step (w lvl iss : ℕ) (c : Link) : Event → Option Link
  | .segment p =>
    (c.socket.tcpInput w lvl p).map fun s =>
      { c with
        socket := s
        acked := if c.socket.Acks p then ackedBy iss c.accepted.length c.acked p.ackNum.toNat
          else c.acked
        edge := if c.socket.Acks p then
            advertised iss c.accepted.length c.acked c.edge p.ackNum.toNat p.winSize.toNat
          else c.edge }
  | .read len =>
    (tcpRead lvl c.socket.rx len).map fun r => { c with socket := { c.socket with rx := r.1 } }
  | .write rest =>
    (c.socket.tcpWrite lvl rest).map fun r =>
      { c with
        socket := r.1
        accepted := c.accepted ++ rest.take r.2.1.count
        sent := c.sent ++ r.2.2.map fun g => (c.acked, c.edge, g) }
  | .retransmitTimeout =>
    some { c with
      socket := c.socket.tcpRetransmit.1
      sent := c.sent ++ c.socket.tcpRetransmit.2.map fun g => (c.acked, c.edge, g) }
  | .ackTimeout => some { c with socket := { c.socket with rx := sendAck c.socket.rx } }

/-- The connection when it is established. -/
def Link.start (irs iss : ℕ) (win : UInt16) (rxRaw txRaw : ℕ → UInt8) : Link :=
  ⟨establishedSocket irs iss win rxRaw txRaw, [], 0, u32 (u32 iss + win.toNat), []⟩

/-- A segment carries the bytes of the stream from the position that its sequence
number stands for; `low` is the position of the first byte not acknowledged when it
was sent. -/
def Carries (iss : ℕ) (accepted : List UInt8) (low : ℕ) (g : Sent) : Prop :=
  let pos := low + sub32 g.sequence (iss + low)
  pos + g.data.length ≤ accepted.length ∧ g.data = (accepted.drop pos).take g.data.length

/-- The transmit stream is intact. -/
structure Link.TransmitIntact (lvl iss : ℕ) (c : Link) : Prop where
  outstanding_le : sub32 c.socket.tx.txHighestSeq c.socket.tx.txWinLow ≤ c.socket.tx.txBufferOffset
  offset_le : c.socket.tx.txBufferOffset ≤ c.socket.tx.txBufferSize
  low : c.socket.tx.txWinLow = u32 (iss + c.acked)
  acked_le : c.acked ≤ c.accepted.length
  buffer : Memory.window c.socket.tx.txBuffer 0 c.socket.tx.txBufferOffset =
    c.accepted.drop c.acked
  carries : ∀ g ∈ c.sent, Carries iss c.accepted g.1 g.2.2
  /-- No assertion of `handle_ack` fails, whatever is acknowledged. -/
  handleAck_ne_none : ∀ sequence winSize, handleAck lvl c.socket.tx sequence winSize ≠ none
  /-- No assertion of `tcp_write` or `tcp_write_pending_data` fails, and its loop ends. -/
  tcpWrite_ne_none : ∀ rest, c.socket.tcpWrite lvl rest ≠ none

/-! ### Sequence numbers -/

theorem sequenceGt_iff (a b : ℕ) : SequenceGt a b ↔ 0 < sub32 a b ∧ sub32 a b < 2 ^ 31 := by
  have hlt := sub32_lt a b
  rw [SequenceGt, int32, u32_of_lt hlt]
  split_ifs <;> omega

theorem sub32_u32_right (a b : ℕ) : sub32 a (u32 b) = sub32 a b := by
  simp only [sub32, u32]
  omega

/-- The distance of two positions of the stream that are close. -/
theorem sub32_positions (iss : ℕ) {a b : ℕ} (h : b ≤ a) (hlt : a - b < 2 ^ 32) :
    sub32 (u32 (iss + a)) (u32 (iss + b)) = a - b := by
  rw [sub32_add_left]
  simp only [sub32, u32]
  omega

/-! ### The invariant of the sending half -/

/-- The counters and the buffer stand for the stream: `acked` bytes of it are
acknowledged and `sentTo` were sent. -/
structure Sends (iss : ℕ) (accepted : List UInt8) (acked sentTo : ℕ) (tx : Sender) : Prop where
  size : tx.txBufferSize = 8192
  acked_le : acked ≤ sentTo
  sentTo_le : sentTo ≤ accepted.length
  offset : tx.txBufferOffset = accepted.length - acked
  offset_le : tx.txBufferOffset ≤ 8192
  low : tx.txWinLow = u32 (iss + acked)
  highest : tx.txHighestSeq = u32 (iss + sentTo)
  buffer : Memory.window tx.txBuffer 0 tx.txBufferOffset = accepted.drop acked

section Sends

variable {iss acked sentTo : ℕ} {accepted : List UInt8} {tx : Sender}

theorem Sends.outstanding (h : Sends iss accepted acked sentTo tx) :
    sub32 tx.txHighestSeq tx.txWinLow = sentTo - acked := by
  have := h.sentTo_le
  have := h.offset
  have := h.offset_le
  rw [h.highest, h.low, sub32_positions iss h.acked_le (by omega)]

/-- The bytes of the buffer from position `p` of the stream on. -/
theorem Sends.window_eq (h : Sends iss accepted acked sentTo tx) {p len : ℕ} (hp : acked ≤ p)
    (hlen : p + len ≤ accepted.length) :
    Memory.window tx.txBuffer (p - acked) len = (accepted.drop p).take len := by
  have hoff := h.offset
  have hp' : accepted.drop p = (accepted.drop acked).drop (p - acked) := by
    rw [List.drop_drop, Nat.add_sub_cancel' hp]
  rw [hp', ← h.buffer, Memory.drop_window _ _ (by omega), Memory.take_window _ _ (by omega),
    Nat.zero_add]

/-- A segment cut from the buffer at position `p` of the stream. -/
theorem Sends.carries (h : Sends iss accepted acked sentTo tx) (p len : ℕ) (hp : acked ≤ p)
    (hlen : p + len ≤ accepted.length) (fin : Bool) :
    Carries iss accepted acked ⟨u32 (iss + p), Memory.window tx.txBuffer (p - acked) len, fin⟩ := by
  have hoff := h.offset
  have hle := h.offset_le
  have hpos : acked + sub32 (u32 (iss + p)) (iss + acked) = p := by
    rw [← sub32_u32_right, sub32_positions iss hp (by omega)]
    omega
  dsimp only [Carries]
  rw [hpos, Memory.length_window]
  exact ⟨hlen, h.window_eq hp hlen⟩

/-- What a segment carries does not change when more is accepted. -/
theorem Carries.append {low : ℕ} {g : Sent} (h : Carries iss accepted low g) (more : List UInt8) :
    Carries iss (accepted ++ more) low g := by
  obtain ⟨hle, hdata⟩ := h
  refine ⟨hle.trans (by simp), ?_⟩
  rw [List.drop_append_of_le_length (by omega), List.take_append_of_le_length, ← hdata]
  rw [List.length_drop]
  omega

/-- **`handle_ack`** takes the acknowledgements of bytes in the buffer and no other. -/
theorem Sends.handleAck (h : Sends iss accepted acked accepted.length tx)
    (lvl sequence winSize : ℕ) :
    ∃ tx', handleAck lvl tx sequence winSize = some tx' ∧
      Sends iss accepted (ackedBy iss accepted.length acked sequence) accepted.length tx' := by
  have hacked := h.acked_le
  have hoff := h.offset
  have hle := h.offset_le
  have hd := sub32_lt sequence (iss + acked)
  have hlow : sub32 sequence tx.txWinLow = sub32 sequence (iss + acked) := by
    rw [h.low, sub32_u32_right]
  have hhigh : sub32 sequence tx.txHighestSeq =
      sub32 (sub32 sequence (iss + acked)) tx.txBufferOffset := by
    rw [h.highest, show iss + accepted.length = iss + acked + tx.txBufferOffset by omega,
      sub32_add_right, sub32_u32_right]
  have hlte := sequenceLte_iff sequence tx.txWinLow
  have hgt := sequenceGt_iff sequence tx.txHighestSeq
  unfold Tcp.handleAck ackedBy
  rw [hlow] at hlte ⊢
  rw [hhigh] at hgt
  generalize sub32 sequence (iss + acked) = d at hd hlte hgt
  by_cases hold : SequenceLte sequence tx.txWinLow
  · -- acknowledged before
    rw [if_pos hold]
    refine ⟨tx, rfl, ?_⟩
    split_ifs with hin
    · obtain rfl : d = 0 := by
        have := hlte.1 hold
        omega
      simpa using h
    · exact h
  · have hold' := mt hlte.2 hold
    rw [if_neg hold]
    by_cases hnew : SequenceGt sequence tx.txHighestSeq
    · -- not sent yet
      have hnew' := hgt.1 hnew
      rw [if_pos hnew, if_neg]
      · exact ⟨tx, rfl, h⟩
      · simp only [sub32, u32] at hnew'
        omega
    · have hin : d ≤ tx.txBufferOffset := by
        have hnew' := mt hgt.2 hnew
        simp only [sub32, u32] at hnew'
        omega
      have hleft : sub32 tx.txBufferOffset d = tx.txBufferOffset - d := sub32_of_le (by omega) hin
      rw [if_neg hnew, if_pos (show acked + d ≤ accepted.length by omega)]
      dsimp only
      rw [if_pos ⟨.of (by rw [h.size]; omega), .of hin⟩]
      refine ⟨_, rfl, h.size, by omega, le_rfl, ?_, ?_, ?_, h.highest, ?_⟩
      · simp only [hleft]
        omega
      · simp only [hleft]
        omega
      · simp only [h.low, u32]
        omega
      · simp only [hleft]
        have hdrop := Memory.drop_window tx.txBuffer 0 hin
        rw [Nat.zero_add] at hdrop
        rw [Memory.window_copy, ← hdrop, h.buffer, List.drop_drop]

end Sends

/-- What a step that sends does: the segments carry bytes of the stream, and of the
receiving half only the right edge of the window moves. -/
structure SendsOut (iss : ℕ) (accepted : List UInt8) (acked : ℕ) (s s' : TcpSocket)
    (sent : List Sent) : Prop where
  sends : Sends iss accepted acked accepted.length s'.tx
  rx : ∃ n, s'.rx = (Tcp.tcpSocketSend)^[n] s.rx
  carries : ∀ g ∈ sent, Carries iss accepted acked g
  fin : ∀ g ∈ sent, g.fin = false

variable {s : TcpSocket}

/-- **The loop of `tcp_write_pending_data`** ends with all of the buffer sent. -/
theorem pendingLoop_spec {iss acked outstanding pending : ℕ} {accepted : List UInt8}
    (hall : acked + outstanding + pending = accepted.length) (fuel : ℕ) {offset : ℕ}
    (h : Sends iss accepted acked (acked + outstanding + offset) s.tx)
    (hmss : 0 < s.rx.mss) (hfuel : pending ≤ offset + fuel) :
    ∃ r, pendingLoop outstanding pending fuel offset s = some r ∧
      SendsOut iss accepted acked s r.1 r.2.2 := by
  have hbuf := h.offset
  have hle := h.offset_le
  have hto := h.sentTo_le
  induction fuel generalizing offset s with
  | zero =>
    rw [pendingLoop, if_neg (by omega)]
    refine ⟨_, rfl, ?_, ⟨0, rfl⟩, by simp, by simp⟩
    rwa [show acked + outstanding + offset = accepted.length by omega] at h
  | succ fuel ih =>
    rw [pendingLoop]
    by_cases hmore : offset < pending
    · rw [if_pos hmore]
      dsimp only
      obtain ⟨n, hn⟩ : ∃ n, n = min s.rx.mss (pending - offset) := ⟨_, rfl⟩
      have hn0 : 0 < n := by omega
      rw [← hn, u32_of_lt (show offset + n < 2 ^ 32 by omega)]
      have hnext : Sends iss accepted acked (acked + outstanding + (offset + n))
          { s.tx with txHighestSeq := u32 (s.tx.txHighestSeq + n) } := by
        refine ⟨h.size, by omega, by omega, hbuf, hle, h.low, ?_, h.buffer⟩
        simp only [h.highest, u32]
        omega
      have hmss' : (Tcp.tcpSocketSend s.rx).mss = s.rx.mss := by rw [tcpSocketSend_eq]
      obtain ⟨r, hr, hsends, ⟨k, hk⟩, hcarry, hfin⟩ :=
        ih (s := ⟨Tcp.tcpSocketSend s.rx,
            { s.tx with txHighestSeq := u32 (s.tx.txHighestSeq + n) }⟩)
          hnext (hmss'.symm ▸ hmss) (by omega) hbuf hle (by omega)
      rw [TcpSocket.tcpSocketSend, hr, Option.map_some]
      have hfirst : Carries iss accepted acked ⟨s.tx.txHighestSeq,
          Memory.window s.tx.txBuffer (outstanding + offset) n, false⟩ := by
        have hc := h.carries (acked + outstanding + offset) n (by omega) (by omega) false
        rwa [← h.highest, show acked + outstanding + offset - acked = outstanding + offset by
          omega] at hc
      refine ⟨_, rfl, hsends, ⟨k + 1, hk.trans (Function.iterate_succ_apply _ _ _).symm⟩, ?_, ?_⟩
      · exact List.forall_mem_cons.2 ⟨hfirst, hcarry⟩
      · exact List.forall_mem_cons.2 ⟨rfl, hfin⟩
    · rw [if_neg hmore]
      refine ⟨_, rfl, ?_, ⟨0, rfl⟩, by simp, by simp⟩
      rwa [show acked + outstanding + offset = accepted.length by omega] at h

/-- **`tcp_write_pending_data`.** -/
theorem Sends.tcpWritePendingData {iss acked sentTo : ℕ} {accepted : List UInt8}
    (h : Sends iss accepted acked sentTo s.tx) (hmss : 0 < s.rx.mss) (lvl : ℕ) :
    ∃ r, tcpWritePendingData lvl s = some r ∧ SendsOut iss accepted acked s r.1 r.2.2 := by
  have hacked := h.acked_le
  have hto := h.sentTo_le
  have hoff := h.offset
  have hle := h.offset_le
  have hsize := h.size
  unfold Tcp.tcpWritePendingData
  rw [if_pos ⟨.of (by omega), .of (by omega)⟩]
  dsimp only
  rw [h.outstanding, sub32_of_le (by omega) (by omega)]
  refine pendingLoop_spec (by omega) _ ?_ hmss (by omega)
  rwa [show acked + (sentTo - acked) + 0 = sentTo by omega]

/-- A pass of `tcp_write` takes `n` bytes. -/
def TcpSocket.Takes (s : TcpSocket) (rest : List UInt8) (n : ℕ) : Prop :=
  s.tx.txEvent = true ∧ (s.rx.state = .established ∨ s.rx.state = .closeWait) ∧ n ≠ 0 ∧
    n = min (s.tx.txBufferSize - s.tx.txBufferOffset) rest.length

/-- **A pass of `tcp_write`** appends what it takes to the stream and sends it. -/
theorem Sends.tcpWrite {iss acked : ℕ} {accepted : List UInt8}
    (h : Sends iss accepted acked accepted.length s.tx) (hmss : 0 < s.rx.mss) (lvl : ℕ)
    (rest : List UInt8) :
    ∃ r, s.tcpWrite lvl rest = some r ∧
      SendsOut iss (accepted ++ rest.take r.2.1.count) acked s r.1 r.2.2 ∧
      (r.2.2 = [] ∨ s.Takes rest r.2.1.count) := by
  have hacked := h.acked_le
  have hoff := h.offset
  have hle := h.offset_le
  have hsize := h.size
  -- nothing taken, nothing sent
  have hidle (a : WriteAnswer) (ha : a.count = 0) :
      SendsOut iss (accepted ++ rest.take a.count) acked s s [] := by
    refine ⟨?_, ⟨0, rfl⟩, by simp, by simp⟩
    simpa [ha] using h
  unfold TcpSocket.tcpWrite
  split_ifs with hev hst hassert
  · exact ⟨_, rfl, hidle _ rfl, .inl rfl⟩
  · exact ⟨_, rfl, hidle _ rfl, .inl rfl⟩
  · dsimp only
    rw [sub32_of_le (by omega) (by omega)]
    obtain ⟨n, hn⟩ : ∃ n, n = min (s.tx.txBufferSize - s.tx.txBufferOffset) rest.length := ⟨_, rfl⟩
    rw [← hn]
    by_cases h0 : n = 0
    · rw [if_pos h0]
      exact ⟨_, rfl, hidle _ rfl, .inl rfl⟩
    rw [if_neg h0, u32_of_lt (show s.tx.txBufferOffset + n < 2 ^ 32 by omega),
      if_pos (.of (by omega))]
    have hcount : (rest.take n).length = n := by
      rw [List.length_take]
      omega
    have hnew (e : Bool) : Sends iss (accepted ++ rest.take n) acked accepted.length
        { s.tx with
          txBuffer := Memory.store s.tx.txBuffer s.tx.txBufferOffset (rest.take n)
          txBufferOffset := s.tx.txBufferOffset + n
          txEvent := e } := by
      refine ⟨hsize, hacked, by simp, ?_, ?_, h.low, h.highest, ?_⟩
      · simp only [List.length_append, hcount]
        omega
      · simp only
        omega
      · have happend := Memory.window_store_end s.tx.txBuffer s.tx.txBufferOffset (rest.take n)
        rw [hcount, h.buffer, ← List.drop_append_of_le_length hacked] at happend
        exact happend
    obtain ⟨r, hr, hout⟩ := (hnew (decide (s.tx.txBufferOffset + n ≠ s.tx.txBufferSize))
      ).tcpWritePendingData (s := ⟨s.rx, _⟩) hmss lvl
    rw [hr, Option.map_some]
    refine ⟨_, rfl, ?_, .inr ⟨by simpa using hev, ?_, h0, hn⟩⟩
    · exact ⟨hout.sends, hout.rx, hout.carries, hout.fin⟩
    · by_contra hopen
      exact hst (not_or.1 hopen)
  · exact absurd ⟨.of (by omega), .of (by omega)⟩ hassert

/-- **`tcp_retransmit`** sends the front of the buffer. -/
theorem Sends.tcpRetransmit {iss acked : ℕ} {accepted : List UInt8}
    (h : Sends iss accepted acked accepted.length s.tx) :
    SendsOut iss accepted acked s s.tcpRetransmit.1 s.tcpRetransmit.2 := by
  have hacked := h.acked_le
  unfold TcpSocket.tcpRetransmit
  rw [h.outstanding]
  dsimp only
  split_ifs
  · exact ⟨h, ⟨0, rfl⟩, by simp, by simp⟩
  · exact ⟨h, ⟨0, rfl⟩, by simp, by simp⟩
  · have hc := h.carries acked (min s.rx.mss (accepted.length - acked)) le_rfl (by omega) false
    rw [Nat.sub_self, ← h.low] at hc
    simp only [TcpSocket.tcpSocketSend]
    refine ⟨h, ⟨1, by rw [Function.iterate_one]⟩, ?_, ?_⟩
    · exact List.forall_mem_singleton.2 hc
    · exact List.forall_mem_singleton.2 rfl

/-! ### The receiving half under the calls of the sending half -/

theorem iterate_tcpSocketSend_eq (n : ℕ) (s : Socket) :
    ∃ k, (tcpSocketSend)^[n] s = { s with rxWinHigh := k } := by
  induction n generalizing s with
  | zero => exact ⟨s.rxWinHigh, rfl⟩
  | succ n ih =>
    obtain ⟨k, hk⟩ := ih (tcpSocketSend s)
    rw [Function.iterate_succ_apply, hk, tcpSocketSend_eq]
    exact ⟨k, rfl⟩

@[simp] theorem sendAck_mss (s : Socket) : (sendAck s).mss = s.mss := by rw [sendAck_eq]

variable {w lvl : ℕ}

theorem handleData_mss {s s' : Socket} {data : ℕ → UInt8} {len sequence : ℕ}
    (h : handleData w lvl s data len sequence = some s') : s'.mss = s.mss := by
  unfold handleData at h
  by_cases hlen : DebugAssert lvl (0 < len)
  · by_cases hin : InOrder s sequence len
    · by_cases hoff : DebugAssert lvl (sub32 sequence s.rxWinLow < len)
      · rw [if_pos hlen, if_pos hin] at h
        dsimp only at h
        rw [if_pos hoff] at h
        obtain ⟨r, -, rfl⟩ := Option.map_eq_some_iff.1 h
        split_ifs <;> simp
      · simp [hlen, hin, hoff] at h
    · rw [if_pos hlen, if_neg hin] at h
      cases h
      exact sendAck_mss s
  · simp [hlen] at h

theorem tcpRemoteClose_mss (s : Socket) : (tcpRemoteClose s).mss = s.mss := by
  unfold tcpRemoteClose
  split_ifs <;> rfl

theorem finWait2Input_mss (s : Socket) (p : Packet) : (finWait2Input s p).mss = s.mss := by
  unfold finWait2Input
  split_ifs
  · exact sendAck_mss _
  · rfl

theorem establishedInput_mss {s s' : Socket} {p : Packet}
    (h : establishedInput w lvl s p = some s') : s'.mss = s.mss := by
  obtain ⟨r, hr, rfl⟩ := Option.map_eq_some_iff.1 h
  have hmss : r.mss = s.mss := by
    split_ifs at hr
    · exact handleData_mss hr
    · rw [Option.some.inj hr]
  dsimp only
  split_ifs
  · exact (sendAck_mss _).trans hmss
  · exact hmss

/-- The segment size is fixed when the socket is made. -/
theorem tcpInput_mss {s s' : Socket} {p : Packet}
    (h : tcpInput w lvl s p = some s') : s'.mss = s.mss := by
  unfold tcpInput at h
  by_cases hrst : p.rst = true
  · rw [if_pos hrst] at h
    cases h
    exact tcpRemoteClose_mss s
  rw [if_neg hrst] at h
  cases hst : s.state <;> rw [hst] at h <;> dsimp only at h
  case established => exact establishedInput_mss h
  case finWait1 =>
    split_ifs at h
    · cases h
      exact finWait2Input_mss _ p
    · cases h
      exact sendAck_mss _
    · rw [Option.some.inj h]
  case finWait2 =>
    cases h
    exact finWait2Input_mss s p
  case lastAck =>
    cases h
    split_ifs
    · exact tcpRemoteClose_mss s
    · rfl
  case closeWait =>
    cases h
    split_ifs
    · exact sendAck_mss s
    · rfl
  case closing =>
    cases h
    split_ifs <;> rfl
  all_goals rw [Option.some.inj h]

theorem tcpRead_mss {lvl : ℕ} {s : Socket} {len : ℕ} {r : Socket × Answer}
    (h : tcpRead lvl s len = some r) : r.1.mss = s.mss := by
  unfold tcpRead at h
  split_ifs at h
  · rw [← Option.some.inj h]
  · rw [← Option.some.inj h]
  · obtain ⟨q, -, rfl⟩ := Option.map_eq_some_iff.1 h
    dsimp only
    split_ifs <;> simp

/-! ### Steps -/

/-- The invariant of a connection that its owner has not closed. -/
structure Link.Inv (iss : ℕ) (c : Link) : Prop where
  sends : Sends iss c.accepted c.acked c.accepted.length c.socket.tx
  mss : 0 < c.socket.rx.mss
  carries : ∀ g ∈ c.sent, Carries iss c.accepted g.1 g.2.2

/-- A step that sends. -/
theorem Link.Inv.sendsOut {iss : ℕ} {c : Link} (h : c.Inv iss) {more : List UInt8}
    {sent : List Sent} (hout : SendsOut iss (c.accepted ++ more) c.acked c.socket s sent) :
    Link.Inv iss ⟨s, c.accepted ++ more, c.acked, c.edge,
        c.sent ++ sent.map fun g => (c.acked, c.edge, g)⟩ := by
  refine ⟨hout.sends, ?_, ?_⟩
  · obtain ⟨n, hn⟩ := hout.rx
    obtain ⟨k, hk⟩ := iterate_tcpSocketSend_eq n c.socket.rx
    rw [hn, hk]
    exact h.mss
  · intro g hg
    rcases List.mem_append.1 hg with hg | hg
    · exact (h.carries g hg).append more
    · obtain ⟨g', hg', rfl⟩ := List.mem_map.1 hg
      exact hout.carries g' hg'

/-- **One step.** -/
theorem Link.Inv.step {w lvl iss : ℕ} {c c' : Link} {e : Event} (h : c.Inv iss)
    (hstep : c.step w lvl iss e = some c') : c'.Inv iss := by
  cases e with
  | segment p =>
    obtain ⟨s, hs, rfl⟩ := Option.map_eq_some_iff.1 hstep
    obtain ⟨tx, htx, hs⟩ := Option.bind_eq_some_iff.1 hs
    obtain ⟨rx, hrx, rfl⟩ := Option.map_eq_some_iff.1 hs
    have hsends : Sends iss c.accepted (if c.socket.Acks p then
        ackedBy iss c.accepted.length c.acked p.ackNum.toNat else c.acked)
        c.accepted.length tx := by
      split_ifs at htx ⊢ with hack
      · obtain ⟨tx', htx', hsends⟩ := h.sends.handleAck lvl p.ackNum.toNat p.winSize.toNat
        obtain rfl : tx' = tx := Option.some.inj (htx'.symm.trans htx)
        exact hsends
      · cases htx
        exact h.sends
    refine ⟨?_, (tcpInput_mss hrx).symm ▸ h.mss, h.carries⟩
    dsimp only
    split_ifs at hsends ⊢
    · exact ⟨hsends.size, hsends.acked_le, le_rfl, hsends.offset, hsends.offset_le, hsends.low,
        hsends.highest, hsends.buffer⟩
    · exact hsends
    · exact ⟨hsends.size, hsends.acked_le, le_rfl, hsends.offset, hsends.offset_le, hsends.low,
        hsends.highest, hsends.buffer⟩
    · exact hsends
  | read len =>
    obtain ⟨r, hr, rfl⟩ := Option.map_eq_some_iff.1 hstep
    exact ⟨h.sends, (tcpRead_mss hr).symm ▸ h.mss, h.carries⟩
  | write rest =>
    obtain ⟨r, hr, rfl⟩ := Option.map_eq_some_iff.1 hstep
    obtain ⟨r', hr', hout, -⟩ := h.sends.tcpWrite h.mss lvl rest
    obtain rfl : r' = r := Option.some.inj (hr'.symm.trans hr)
    exact h.sendsOut hout
  | retransmitTimeout =>
    cases hstep
    have hout := h.sends.tcpRetransmit
    rw [← List.append_nil c.accepted] at hout
    simpa using h.sendsOut hout
  | ackTimeout =>
    cases hstep
    exact ⟨h.sends, by simpa using h.mss, h.carries⟩

theorem Link.inv_start (irs iss : ℕ) (win : UInt16) (rxRaw txRaw : ℕ → UInt8) :
    (Link.start irs iss win rxRaw txRaw).Inv iss :=
  ⟨⟨rfl, le_rfl, le_rfl, rfl, Nat.zero_le _, rfl, rfl, rfl⟩,
    by simp [start, establishedSocket, acceptSocket, defaultMss], by simp [start]⟩

/-- The invariant gives an intact stream, whatever the debug level. -/
theorem Link.Inv.transmitIntact {iss : ℕ} {c : Link} (h : c.Inv iss) (lvl : ℕ) :
    c.TransmitIntact lvl iss where
  outstanding_le := by
    rw [h.sends.outstanding, h.sends.offset]
  offset_le := by
    rw [h.sends.size]
    exact h.sends.offset_le
  low := h.sends.low
  acked_le := h.sends.acked_le
  buffer := h.sends.buffer
  carries := h.carries
  handleAck_ne_none sequence winSize := by
    obtain ⟨tx, htx, -⟩ := h.sends.handleAck lvl sequence winSize
    simp [htx]
  tcpWrite_ne_none rest := by
    obtain ⟨r, hr, -⟩ := h.sends.tcpWrite h.mss lvl rest
    simp [hr]

/-- **The transmit stream is intact** in every state of every run: whatever is written,
acknowledged, sent again and received, the buffer holds the bytes not acknowledged and
every segment carries the bytes its sequence number stands for. -/
theorem transmit_stream_intact (w lvl irs iss : ℕ) (win : UInt16) (rxRaw txRaw : ℕ → UInt8)
    (events : List Event) :
    Machine.Throughout (Link.step w lvl iss) (Link.TransmitIntact lvl iss)
      (Link.start irs iss win rxRaw txRaw) events :=
  (Machine.throughout_inv (fun _ _ _ hc hstep => hc.step hstep) events _
    (Link.inv_start irs iss win rxRaw txRaw)).imp fun _ hc => hc.transmitIntact lvl

end Tcp
end LittleKernel
