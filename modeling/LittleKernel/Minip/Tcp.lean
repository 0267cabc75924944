/-
# The receiving side of a TCP connection: `lib/minip/tcp.c`

A connected socket keeps the receive window `rx_win_low .. rx_win_high`, both
sequence numbers modulo `2 ^ 32`, and the bytes received in order in a circular
buffer of `rx_win_size` bytes.  `tcp_input` hands the data of a segment to
`handle_data`, which takes what lies at the low edge of the window and drops the
rest; `tcp_read` empties the buffer, and whatever is sent carries the new right
edge of the window.

`stream` is what the peer sends, `irs` the sequence number of its first byte, and
a segment is known by the position of its first byte in the stream.  The receive
stream is intact when the bytes read, followed by those in the buffer, are the
first bytes of the stream, and `rx_win_low` is the sequence number behind them;
a `FIN` takes the sequence number after the last byte.

It stays intact as long as a segment that `handle_data` takes starts at the next
byte expected (`receive_stream_intact`).  A retransmission that starts before it
is taken as well, but `offset` is computed the wrong way round: the bytes stored
come from outside the segment (`overlap_corrupts`).

The functions are the critical sections under `s->lock`, and `none` is a
`DEBUG_ASSERT` that stops the machine.  The states before `STATE_ESTABLISHED` and
the transmit side (`handle_ack`, the transmit buffer, the timers themselves) are
left out.
-/

import LittleKernel.Cbuf.Fifo

namespace LittleKernel
namespace Tcp

open Word

/-! ### The socket -/

/-- `tcp_state_t`, the states of a connected socket. -/
inductive State
  | closed
  | established
  | closeWait
  | lastAck
  | closing
  | finWait1
  | finWait2
  | timeWait
  deriving DecidableEq

/-- `DEFAULT_MSS`. -/
def defaultMss : ℕ := 1460

/-- `DEFAULT_RX_WINDOW_SIZE`. -/
def defaultRxWindowSize : ℕ := 8192

/-- `tcp_socket_t`, its receiving half; `rxEvent` is the `signaled` flag. -/
structure Socket where
  state : State
  mss : ℕ
  rxWinSize : ℕ
  rxWinLow : ℕ
  rxWinHigh : ℕ
  rxBuffer : Cbuf.CbufT
  rxEvent : Bool
  rxFullMssCount : ℕ

/-- `(int32_t)x`, on `uint32_t`. -/
def int32 (x : ℕ) : ℤ := if u32 x < 2 ^ 31 then u32 x else (u32 x : ℤ) - 2 ^ 32

/-- `SEQUENCE_GTE(a, b)`. -/
def SequenceGte (a b : ℕ) : Prop := 0 ≤ int32 (sub32 a b)

/-- `SEQUENCE_LTE(a, b)`. -/
def SequenceLte (a b : ℕ) : Prop := int32 (sub32 a b) ≤ 0

instance (a b : ℕ) : Decidable (SequenceGte a b) := inferInstanceAs (Decidable (0 ≤ _))

instance (a b : ℕ) : Decidable (SequenceLte a b) := inferInstanceAs (Decidable (_ ≤ (0 : ℤ)))

/-- A socket as `create_tcp_socket` and the `STATE_LISTEN` branch of `tcp_input`
set it up for a peer whose first byte has sequence number `irs`, after the last
packet of the handshake. -/
def acceptSocket (irs : ℕ) (raw : ℕ → UInt8) : Socket where
  state := .established
  mss := defaultMss
  rxWinSize := defaultRxWindowSize
  rxWinLow := u32 irs
  rxWinHigh := u32 (u32 irs + defaultRxWindowSize - 1)
  rxBuffer := ⟨0, 0, log2Uint defaultRxWindowSize, raw, false⟩
  rxEvent := false
  rxFullMssCount := 0

/-- `tcp_socket_send`: the right edge of the window the packet advertises. -/
def tcpSocketSend (s : Socket) : Socket :=
  let rxWinHigh := sub32 (sub32 (s.rxWinLow + s.rxWinSize) (Cbuf.cbufSpaceUsed s.rxBuffer)) 1
  if SequenceGte rxWinHigh s.rxWinHigh then { s with rxWinHigh := rxWinHigh } else s

/-- `send_ack`. -/
def sendAck (s : Socket) : Socket :=
  if s.state ≠ .established ∧ s.state ≠ .closeWait ∧ s.state ≠ .finWait2 then s
  else tcpSocketSend s

/-! ### A segment -/

/-- What `tcp_input` reads of a packet once the header is checked and consumed:
`data i` is the byte at `p->data + i`, of which the first `len` are the payload. -/
structure Packet where
  seqNum : ℕ
  len : ℕ
  data : ℕ → UInt8
  fin : Bool
  rst : Bool
  ack : Bool

/-- `highest_sequence` of `tcp_input`. -/
def Packet.highestSequence (p : Packet) : ℕ :=
  u32 (p.seqNum + if 0 < p.len then p.len - 1 else 0)

/-- The test of `handle_data`: the segment meets the low edge of the window. -/
def InOrder (s : Socket) (sequence len : ℕ) : Prop :=
  SequenceLte sequence s.rxWinLow ∧ SequenceGte (sub32 (sequence + len) 1) s.rxWinLow

instance (s : Socket) (sequence len : ℕ) : Decidable (InOrder s sequence len) :=
  inferInstanceAs (Decidable (_ ∧ _))

/-- `handle_data`; `w` is the width of `size_t` and of an address. -/
def handleData (w lvl : ℕ) (s : Socket) (data : ℕ → UInt8) (len sequence : ℕ) : Option Socket :=
  if DebugAssert lvl (0 < len) then
    if InOrder s sequence len then
      let offset := sub32 sequence s.rxWinLow
      let copyLen := min (sub32 s.rxWinHigh s.rxWinLow) (subW w len offset)
      if DebugAssert lvl (offset < len) then
        let s := { s with rxWinLow := u32 (s.rxWinLow + copyLen) }
        (Cbuf.cbufWrite lvl s.rxBuffer (some fun i => data (addW w offset i)) copyLen).map fun r =>
          let s := { s with rxBuffer := r.1, rxEvent := true }
          let s := { s with rxFullMssCount := if s.mss ≤ copyLen then s.rxFullMssCount + 1 else 0 }
          if 2 ≤ s.rxFullMssCount ∨
              (s.rxWinSize / 2 : ℤ) < int32 (sub32 (s.rxWinLow + s.rxWinSize) s.rxWinHigh) then
            { sendAck s with rxFullMssCount := 0 }
          else s
      else none
    else some (sendAck s)
  else none

/-- `tcp_remote_close`. -/
def tcpRemoteClose (s : Socket) : Socket :=
  if s.state = .closed then s else { s with state := .closed, rxEvent := true }

/-- The `STATE_FIN_WAIT_2` branch of `tcp_input`. -/
def finWait2Input (s : Socket) (p : Packet) : Socket :=
  if p.fin then
    { sendAck { s with rxWinLow := u32 (s.rxWinLow + 1) } with state := .timeWait }
  else s

/-- The `STATE_ESTABLISHED` branch of `tcp_input`. -/
def establishedInput (w lvl : ℕ) (s : Socket) (p : Packet) : Option Socket :=
  (if 0 < p.len then handleData w lvl s p.data p.len p.seqNum else some s).map fun s =>
    if p.fin ∧ SequenceGte s.rxWinLow p.highestSequence then
      -- the peer is closing, and there is no outstanding data
      { sendAck { s with rxWinLow := u32 (s.rxWinLow + 1) } with
        state := .closeWait, rxEvent := true }
    else s

/-- `tcp_input`, for a socket that `lookup_socket` found in one of the states after
the handshake. -/
def tcpInput (w lvl : ℕ) (s : Socket) (p : Packet) : Option Socket :=
  if p.rst then some (tcpRemoteClose s)
  else
    match s.state with
    | .closed => some s
    | .established => establishedInput w lvl s p
    | .closeWait => some (if p.fin then sendAck s else s)
    | .lastAck => some (if p.ack then tcpRemoteClose s else s)
    | .finWait1 =>
      if p.ack then some (finWait2Input { s with state := .finWait2 } p)
      else if p.fin then
        some { sendAck { s with rxWinLow := u32 (s.rxWinLow + 1) } with state := .closing }
      else some s
    | .finWait2 => some (finWait2Input s p)
    | .closing => some (if p.ack then { s with state := .timeWait } else s)
    | .timeWait => some s

/-! ### Reading -/

/-- What `tcp_read` returns. -/
inductive Answer
  | bytes (l : List UInt8)
  | channelClosed
  /-- The caller sleeps on `rx_event`. -/
  | blocked
  deriving DecidableEq

/-- The bytes an answer hands over. -/
def Answer.data : Answer → List UInt8
  | .bytes l => l
  | _ => []

/-- `tcp_read` into a buffer that exists: one pass from `retry`.  A pass that finds
nothing on an open connection unsignals the event and goes back to sleep. -/
def tcpRead (lvl : ℕ) (s : Socket) (len : ℕ) : Option (Socket × Answer) :=
  if len = 0 then some (s, .bytes [])
  else if s.rxEvent = false then some (s, .blocked)
  else
    (Cbuf.cbufRead lvl s.rxBuffer (some fun _ => 0) len false).map fun r =>
      let s := { s with rxBuffer := r.1 }
      if r.2.2 = 0 then
        if s.state ≠ .established then (s, .channelClosed)
        else ({ s with rxEvent := false }, .blocked)
      else
        let remaining := Cbuf.cbufSpaceUsed s.rxBuffer
        let s := if s.state = .established ∧ remaining = 0 then { s with rxEvent := false } else s
        let s := if s.mss ≤ sub32 s.rxWinSize remaining ∧ sub32 s.rxWinHigh s.rxWinLow < s.mss
          then sendAck s else s
        (s, .bytes (Memory.window (r.2.1.getD fun _ => 0) 0 r.2.2))

/-! ### Runs of a connection -/

/-- A segment of the peer's stream: the payload is `len` bytes from position `pos`,
and `around i` is what lies in memory at `p->data + i` outside of them. -/
structure Segment where
  pos : ℕ
  len : ℕ
  fin : Bool
  rst : Bool
  ack : Bool
  around : ℕ → UInt8

/-- The packet that carries a segment. -/
def Segment.packet (stream : List UInt8) (irs : ℕ) (g : Segment) : Packet where
  seqNum := u32 (irs + g.pos)
  len := g.len
  data i := if i < g.len then stream.getD (g.pos + i) 0 else g.around i
  fin := g.fin
  rst := g.rst
  ack := g.ack

/-- The payload is part of the stream and fits an IPv4 packet, and a `FIN` ends the
stream. -/
def Segment.Consistent (stream : List UInt8) (g : Segment) : Prop :=
  g.pos + g.len ≤ stream.length ∧ g.len < 2 ^ 16 ∧
    (g.fin = true → g.pos + g.len = stream.length)

/-- What happens to a connection. -/
inductive Op
  /-- A segment arrives. -/
  | segment (g : Segment)
  /-- A call of `tcp_read`. -/
  | read (len : ℕ)
  /-- `handle_delayed_ack_timeout`. -/
  | ackTimeout
  /-- Data is sent or sent again: `tcp_write_pending_data`, `tcp_retransmit`. -/
  | transmit

/-- A socket with what has become of its stream: the bytes `tcp_read` returned, and
whether the peer's `FIN` was taken. -/
structure Conn where
  socket : Socket
  delivered : List UInt8
  finned : Bool

/-- One step. -/
def step (w lvl : ℕ) (stream : List UInt8) (irs : ℕ) (c : Conn) : Op → Option Conn
  | .segment g =>
    (tcpInput w lvl c.socket (g.packet stream irs)).map fun s =>
      { c with
        socket := s
        finned := c.finned || (c.socket.state == .established && s.state == .closeWait) }
  | .read len =>
    (tcpRead lvl c.socket len).map fun r =>
      { c with
        socket := r.1
        delivered := c.delivered ++ r.2.data }
  | .ackTimeout => some { c with socket := sendAck c.socket }
  | .transmit => some { c with socket := tcpSocketSend c.socket }

/-- The bytes taken from the stream: those read and those in the buffer. -/
def Conn.received (c : Conn) : List UInt8 := c.delivered ++ Cbuf.contents c.socket.rxBuffer

/-- The receive stream is intact. -/
def Conn.Intact (stream : List UInt8) (irs : ℕ) (c : Conn) : Prop :=
  c.received <+: stream ∧
    c.socket.rxWinLow = u32 (irs + c.received.length + if c.finned then 1 else 0) ∧
    (c.finned = true → c.received = stream)

/-! ### Sequence numbers -/

theorem sequenceGte_iff (a b : ℕ) : SequenceGte a b ↔ sub32 a b < 2 ^ 31 := by
  have hlt := sub32_lt a b
  rw [SequenceGte, int32, u32_of_lt hlt]
  split_ifs <;> omega

theorem sequenceLte_iff (a b : ℕ) : SequenceLte a b ↔ sub32 a b = 0 ∨ 2 ^ 31 ≤ sub32 a b := by
  have hlt := sub32_lt a b
  rw [SequenceLte, int32, u32_of_lt hlt]
  split_ifs <;> omega

/-! ### The window -/

/-- The receive buffer is the one `create_tcp_socket` set up. -/
structure Buffered (s : Socket) : Prop where
  wf : Cbuf.Wf s.rxBuffer
  pow : s.rxBuffer.lenPow2 = 13
  size : s.rxWinSize = 8192

/-- What is left of the window fits in what is left of the buffer. -/
structure Receiving (s : Socket) : Prop extends Buffered s where
  low_lt : s.rxWinLow < 2 ^ 32
  high_lt : s.rxWinHigh < 2 ^ 32
  fits : sub32 s.rxWinHigh s.rxWinLow + Cbuf.cbufSpaceUsed s.rxBuffer ≤ 8191

variable {s : Socket}

theorem Buffered.used_le (h : Buffered s) : Cbuf.cbufSpaceUsed s.rxBuffer ≤ 8191 := by
  have := h.wf.used_lt
  rw [h.pow] at this
  omega

theorem Buffered.avail (h : Buffered s) :
    Cbuf.cbufSpaceAvail s.rxBuffer = 8191 - Cbuf.cbufSpaceUsed s.rxBuffer := by
  rw [h.wf.avail_eq, h.pow]
  rfl

/-- The right edge stays or moves to where the buffer has room. -/
theorem tcpSocketSend_cases (s : Socket) :
    tcpSocketSend s = s ∨
      SequenceGte (sub32 (sub32 (s.rxWinLow + s.rxWinSize) (Cbuf.cbufSpaceUsed s.rxBuffer)) 1)
        s.rxWinHigh ∧ tcpSocketSend s = { s with
        rxWinHigh := sub32 (sub32 (s.rxWinLow + s.rxWinSize) (Cbuf.cbufSpaceUsed s.rxBuffer)) 1 } := by
  unfold tcpSocketSend
  dsimp only
  split_ifs with hgte
  · exact .inr ⟨hgte, rfl⟩
  · exact .inl rfl

/-- Only the right edge of the window moves when something is sent. -/
theorem tcpSocketSend_eq (s : Socket) :
    tcpSocketSend s = { s with rxWinHigh := (tcpSocketSend s).rxWinHigh } := by
  unfold tcpSocketSend
  dsimp only
  split_ifs <;> rfl

@[simp] theorem tcpSocketSend_rxWinLow (s : Socket) :
    (tcpSocketSend s).rxWinLow = s.rxWinLow := by
  rw [tcpSocketSend_eq]

theorem sendAck_eq (s : Socket) : sendAck s = { s with rxWinHigh := (sendAck s).rxWinHigh } := by
  unfold sendAck
  split_ifs
  · rfl
  · exact tcpSocketSend_eq s

@[simp] theorem sendAck_state (s : Socket) : (sendAck s).state = s.state := by rw [sendAck_eq]

@[simp] theorem sendAck_rxWinLow (s : Socket) : (sendAck s).rxWinLow = s.rxWinLow := by
  rw [sendAck_eq]

@[simp] theorem sendAck_rxBuffer (s : Socket) : (sendAck s).rxBuffer = s.rxBuffer := by
  rw [sendAck_eq]

@[simp] theorem sendAck_rxWinSize (s : Socket) : (sendAck s).rxWinSize = s.rxWinSize := by
  rw [sendAck_eq]

theorem Buffered.sendAck (h : Buffered s) : Buffered (sendAck s) :=
  ⟨by simpa using h.wf, by simpa using h.pow, by simpa using h.size⟩

/-- The new right edge lies as far ahead as the buffer has room. -/
theorem Receiving.tcpSocketSend (h : Receiving s) : Receiving (tcpSocketSend s) := by
  have hu := h.used_le
  have hs := h.size
  have hl := h.low_lt
  unfold Tcp.tcpSocketSend
  dsimp only
  split_ifs
  · refine ⟨⟨h.wf, h.pow, hs⟩, hl, sub32_lt _ _, ?_⟩
    simp only [hs, sub32, u32]
    omega
  · exact h

theorem Receiving.sendAck (h : Receiving s) : Receiving (sendAck s) := by
  unfold Tcp.sendAck
  split_ifs
  · exact h
  · exact h.tcpSocketSend

/-- The right edge of the window never moves back. -/
theorem Receiving.window_le_tcpSocketSend (h : Receiving s) :
    sub32 s.rxWinHigh s.rxWinLow ≤ sub32 (Tcp.tcpSocketSend s).rxWinHigh s.rxWinLow := by
  have hu := h.used_le
  have hl := h.low_lt
  have hfits := h.fits
  rcases tcpSocketSend_cases s with hs | ⟨-, hs⟩
  · rw [hs]
  · rw [hs]
    simp only [h.size, sub32, u32] at hfits ⊢
    omega

theorem Receiving.window_le_sendAck (h : Receiving s) :
    sub32 s.rxWinHigh s.rxWinLow ≤ sub32 (Tcp.sendAck s).rxWinHigh s.rxWinLow := by
  unfold Tcp.sendAck
  split_ifs
  · exact le_rfl
  · exact h.window_le_tcpSocketSend

/-! ### The calls -/

/-- **`handle_data`**, a segment that meets the low edge of the window. -/
theorem handleData_inOrder (w lvl : ℕ) (h : Receiving s) (data : ℕ → UInt8)
    {len sequence : ℕ} (hlen : 0 < len) (hin : InOrder s sequence len)
    (hassert : DebugAssert lvl (sub32 sequence s.rxWinLow < len)) {n : ℕ}
    (hn : n = min (sub32 s.rxWinHigh s.rxWinLow) (subW w len (sub32 sequence s.rxWinLow))) :
    ∃ s', handleData w lvl s data len sequence = some s' ∧ Receiving s' ∧ s'.state = s.state ∧
      s'.rxWinLow = u32 (s.rxWinLow + n) ∧
      sub32 s.rxWinHigh s.rxWinLow ≤ n + sub32 s'.rxWinHigh s'.rxWinLow ∧
      Cbuf.contents s'.rxBuffer = Cbuf.contents s.rxBuffer ++
        Memory.window (fun i => data (addW w (sub32 sequence s.rxWinLow) i)) 0 n := by
  have hfits := h.fits
  have hwin : n ≤ sub32 s.rxWinHigh s.rxWinLow := hn ▸ Nat.min_le_left _ _
  have havail : min n (Cbuf.cbufSpaceAvail s.rxBuffer) = n := by
    rw [h.avail]; omega
  have hroom : DebugAssert lvl (n < 2 ^ s.rxBuffer.lenPow2) := .of (by rw [h.pow]; omega)
  obtain ⟨b, hb, hwf, hpow, hcont⟩ := Cbuf.cbufWrite_spec h.wf
    (some fun i => data (addW w (sub32 sequence s.rxWinLow) i)) hroom
  rw [havail] at hb hcont
  have hused : Cbuf.cbufSpaceUsed b = Cbuf.cbufSpaceUsed s.rxBuffer + n := by
    rw [← Cbuf.length_contents, hcont]
    simp
  -- the socket before the decision to acknowledge
  have hs₁ (k : ℕ) : Receiving { s with
      rxWinLow := u32 (s.rxWinLow + n), rxBuffer := b, rxEvent := true, rxFullMssCount := k } := by
    refine ⟨⟨hwf, hpow.trans h.pow, h.size⟩, u32_lt _, h.high_lt, ?_⟩
    have hl := h.low_lt
    have hh := h.high_lt
    simp only [hused]
    simp only [sub32, u32] at hwin hfits ⊢
    omega
  have hleft : sub32 s.rxWinHigh s.rxWinLow ≤ n + sub32 s.rxWinHigh (u32 (s.rxWinLow + n)) := by
    have hl := h.low_lt
    simp only [sub32, u32] at hwin ⊢
    omega
  unfold handleData
  rw [if_pos (.of hlen), if_pos hin]
  dsimp only
  rw [← hn, if_pos hassert, hb, Option.map_some]
  refine ⟨_, rfl, ?_⟩
  dsimp only
  generalize (if s.mss ≤ n then s.rxFullMssCount + 1 else 0) = k
  split_ifs
  · have hs₂ := (hs₁ k).sendAck
    refine ⟨⟨⟨hs₂.wf, hs₂.pow, hs₂.size⟩, hs₂.low_lt, hs₂.high_lt, hs₂.fits⟩, ?_, ?_, ?_, ?_⟩
    · exact sendAck_state _
    · exact sendAck_rxWinLow _
    · rw [sendAck_rxWinLow]
      exact hleft.trans (Nat.add_le_add_left (hs₁ k).window_le_sendAck n)
    · rw [sendAck_rxBuffer]
      exact hcont
  · exact ⟨hs₁ k, rfl, rfl, hleft, hcont⟩

/-- A segment that does not is dropped. -/
theorem handleData_dropped {w lvl : ℕ} (data : ℕ → UInt8) {len sequence : ℕ}
    (hlen : 0 < len) (hin : ¬ InOrder s sequence len) :
    handleData w lvl s data len sequence = some (sendAck s) := by
  rw [handleData, if_pos (.of hlen), if_neg hin]

/-- **`tcp_read`** returns the first bytes of the buffer, or nothing and leaves it. -/
theorem tcpRead_spec (h : Buffered s) (lvl len : ℕ) :
    ∃ s' a, tcpRead lvl s len = some (s', a) ∧ Buffered s' ∧ (Receiving s → Receiving s' ∧
        sub32 s.rxWinHigh s.rxWinLow ≤ sub32 s'.rxWinHigh s'.rxWinLow) ∧
      s'.state = s.state ∧ s'.rxWinLow = s.rxWinLow ∧
      a.data ++ Cbuf.contents s'.rxBuffer = Cbuf.contents s.rxBuffer := by
  unfold tcpRead
  split_ifs with hlen hev
  · exact ⟨s, _, rfl, h, fun hr => ⟨hr, le_rfl⟩, rfl, rfl, rfl⟩
  · exact ⟨s, _, rfl, h, fun hr => ⟨hr, le_rfl⟩, rfl, rfl, rfl⟩
  obtain ⟨b, hb, hwf, hpow, hcont⟩ := Cbuf.cbufReadLocked_spec h.wf lvl (some fun _ => 0) len
  have hbuf (e : Bool) : Buffered { s with rxBuffer := b, rxEvent := e } :=
    ⟨hwf, hpow.trans h.pow, h.size⟩
  have hused : Cbuf.cbufSpaceUsed b ≤ Cbuf.cbufSpaceUsed s.rxBuffer := by
    rw [← Cbuf.length_contents, ← Cbuf.length_contents, hcont, List.length_drop]
    omega
  have hrec (e : Bool) (hr : Receiving s) : Receiving { s with rxBuffer := b, rxEvent := e } :=
    ⟨hbuf e, hr.low_lt, hr.high_lt, by have := hr.fits; simp only; omega⟩
  rw [Cbuf.cbufRead, if_neg (by simp), hb, Option.map_some]
  dsimp only
  by_cases h0 : min len (Cbuf.cbufSpaceUsed s.rxBuffer) = 0
  · rw [h0, List.drop_zero] at hcont
    rw [if_pos h0]
    split_ifs
    · exact ⟨_, _, rfl, hbuf s.rxEvent, fun hr => ⟨hrec s.rxEvent hr, le_rfl⟩, rfl, rfl, hcont⟩
    · exact ⟨_, _, rfl, hbuf false, fun hr => ⟨hrec false hr, le_rfl⟩, rfl, rfl, hcont⟩
  · rw [if_neg h0]
    have hout : Memory.window (Memory.store (fun _ => (0 : UInt8)) 0
        ((Cbuf.contents s.rxBuffer).take (min len (Cbuf.cbufSpaceUsed s.rxBuffer)))) 0
        (min len (Cbuf.cbufSpaceUsed s.rxBuffer)) =
        (Cbuf.contents s.rxBuffer).take (min len (Cbuf.cbufSpaceUsed s.rxBuffer)) := by
      have := Memory.window_store (fun _ => (0 : UInt8)) 0 []
        ((Cbuf.contents s.rxBuffer).take (min len (Cbuf.cbufSpaceUsed s.rxBuffer))) []
      simpa using this
    have hread : (Cbuf.contents s.rxBuffer).take (min len (Cbuf.cbufSpaceUsed s.rxBuffer)) ++
        Cbuf.contents b = Cbuf.contents s.rxBuffer := by
      rw [hcont, List.take_append_drop]
    -- whether or not the event is unsignalled
    obtain ⟨e, he⟩ : ∃ e, (if s.state = .established ∧ Cbuf.cbufSpaceUsed b = 0 then
        { s with rxBuffer := b, rxEvent := false } else { s with rxBuffer := b }) =
        { s with rxBuffer := b, rxEvent := e } := by
      split_ifs
      · exact ⟨false, rfl⟩
      · exact ⟨s.rxEvent, rfl⟩
    rw [he]
    refine ⟨_, _, rfl, ?_⟩
    simp only [Option.map_some, Option.getD_some, hout]
    split_ifs
    · refine ⟨(hbuf e).sendAck, fun hr => ⟨(hrec e hr).sendAck, ?_⟩, ?_, ?_, ?_⟩
      · rw [sendAck_rxWinLow]
        exact (hrec e hr).window_le_sendAck
      · exact sendAck_state _
      · exact sendAck_rxWinLow _
      · simpa [Answer.data] using hread
    · exact ⟨hbuf e, fun hr => ⟨hrec e hr, le_rfl⟩, rfl, rfl, hread⟩

/-! ### The invariant -/

/-- The invariant of a connection whose owner has not closed it. -/
structure Inv (stream : List UInt8) (irs : ℕ) (c : Conn) : Prop where
  buffered : Buffered c.socket
  state : c.socket.state = .established ∨ c.socket.state = .closeWait ∨ c.socket.state = .closed
  receiving : c.socket.state = .established → Receiving c.socket ∧ c.finned = false
  intact : c.Intact stream irs

/-- The condition under which a step keeps the stream intact.  A segment that
`handle_data` takes starts at the next byte expected, so that none overlaps what was
received before; and a `FIN` is less than half the sequence space ahead and its
segment is not exactly one byte longer than the window. -/
def Op.Meets (irs : ℕ) (c : Conn) : Op → Prop
  | .segment g => g.rst = false → c.socket.state = .established →
      (0 < g.len → InOrder c.socket (u32 (irs + g.pos)) g.len → g.pos = c.received.length) ∧
      (g.fin = true → g.pos + g.len ≤ c.received.length + 2 ^ 31 ∧
        (g.pos = c.received.length →
          g.len ≠ sub32 c.socket.rxWinHigh c.socket.rxWinLow + 1))
  | _ => True

/-- The segments of a run carry bytes of the stream. -/
def Op.Consistent (stream : List UInt8) : Op → Prop
  | .segment g => g.Consistent stream
  | _ => True

variable {stream : List UInt8} {irs : ℕ} {c : Conn} {g : Segment}

/-- The payload of a segment at the next byte expected. -/
theorem window_packet {w n : ℕ} (hw : 32 ≤ w) (hg : g.Consistent stream) (hn : n ≤ g.len) :
    Memory.window (fun i => (g.packet stream irs).data (addW w 0 i)) 0 n =
      (stream.drop g.pos).take n := by
  obtain ⟨hle, hlen, -⟩ := hg
  have hpow : 2 ^ 32 ≤ 2 ^ w := Nat.pow_le_pow_right (by norm_num) hw
  refine List.ext_getElem (by simp; omega) fun i hi _ => ?_
  have hi' : i < n := by simpa using hi
  simp [Memory.window, Segment.packet, addW_of_lt (show 0 + i < 2 ^ w by omega),
    show i < g.len by omega, List.getD_eq_getElem?_getD,
    List.getElem?_eq_getElem (show g.pos + i < stream.length by omega)]

/-- The bytes of a segment that the data branch of `tcp_input` takes. -/
def taken (s : Socket) (p : Packet) : ℕ :=
  if 0 < p.len ∧ InOrder s p.seqNum p.len then min (sub32 s.rxWinHigh s.rxWinLow) p.len else 0

theorem taken_le_len (s : Socket) (p : Packet) : taken s p ≤ p.len := by
  unfold taken
  split_ifs
  · exact Nat.min_le_right _ _
  · exact Nat.zero_le _

/-- What is taken is still to come in the stream. -/
theorem Inv.taken_le (h : Inv stream irs c) (hst : c.socket.state = .established)
    (hg : g.Consistent stream) (hrst : g.rst = false) (hm : Op.Meets irs c (.segment g)) :
    c.received.length + taken c.socket (g.packet stream irs) ≤ stream.length := by
  by_cases ht : 0 < g.len ∧ InOrder c.socket (u32 (irs + g.pos)) g.len
  · have hle : taken c.socket (g.packet stream irs) ≤ g.len := taken_le_len _ _
    rw [← (hm hrst hst).1 ht.1 ht.2]
    exact (Nat.add_le_add_left hle _).trans hg.1
  · rw [show taken c.socket (g.packet stream irs) = 0 from if_neg ht]
    exact h.intact.1.length_le

variable {w : ℕ}

section

variable (h : Inv stream irs c)
include h

/-- **The data of a segment** extends what was received by the bytes taken. -/
theorem Inv.data (hst : c.socket.state = .established) (lvl : ℕ)
    (hw : 32 ≤ w) (hg : g.Consistent stream) (hrst : g.rst = false)
    (hm : Op.Meets irs c (.segment g)) :
    ∃ s', (if 0 < g.len then handleData w lvl c.socket (g.packet stream irs).data g.len
        (u32 (irs + g.pos)) else some c.socket) = some s' ∧ Receiving s' ∧
      s'.state = .established ∧
      s'.rxWinLow = u32 (irs + (c.received.length + taken c.socket (g.packet stream irs))) ∧
      c.delivered ++ Cbuf.contents s'.rxBuffer =
        c.received ++ (stream.drop c.received.length).take (taken c.socket (g.packet stream irs)) := by
  obtain ⟨hrec, hfin⟩ := h.receiving hst
  have hlow : c.socket.rxWinLow = u32 (irs + c.received.length) := by
    simpa [hfin] using h.intact.2.1
  by_cases hlen : 0 < g.len
  · rw [if_pos hlen]
    by_cases hin : InOrder c.socket (u32 (irs + g.pos)) g.len
    · have hpos : g.pos = c.received.length := (hm hrst hst).1 hlen hin
      have hoff : sub32 (u32 (irs + g.pos)) c.socket.rxWinLow = 0 := by
        rw [hlow, hpos, sub32_add_left, sub32, u32, u32]
        omega
      have hpow : 2 ^ 32 ≤ 2 ^ w := Nat.pow_le_pow_right (by norm_num) hw
      have htaken : taken c.socket (g.packet stream irs) = min
          (sub32 c.socket.rxWinHigh c.socket.rxWinLow)
          (subW w g.len (sub32 (u32 (irs + g.pos)) c.socket.rxWinLow)) := by
        rw [hoff, subW_of_le (by have := hg.2.1; omega) (Nat.zero_le _)]
        exact if_pos ⟨hlen, hin⟩
      obtain ⟨s', hs', hrec', hst', hlow', -, hcont'⟩ := handleData_inOrder w lvl hrec
        (g.packet stream irs).data hlen hin (.of (hoff ▸ hlen)) htaken
      have hle : taken c.socket (g.packet stream irs) ≤ g.len := taken_le_len _ _
      refine ⟨s', hs', hrec', hst'.trans hst, ?_, ?_⟩
      · rw [hlow', hlow, u32, u32, u32, Nat.mod_add_mod, Nat.add_assoc]
      · rw [hcont', hoff, window_packet hw hg hle, hpos, ← List.append_assoc, Conn.received]
    · have htaken : taken c.socket (g.packet stream irs) = 0 := if_neg fun h => hin h.2
      refine ⟨_, handleData_dropped _ hlen hin, hrec.sendAck, by simpa using hst, ?_, ?_⟩
      · simpa [htaken] using hlow
      · simp [htaken, Conn.received]
  · have htaken : taken c.socket (g.packet stream irs) = 0 := if_neg fun h => hlen h.1
    rw [if_neg hlen]
    refine ⟨_, rfl, hrec, hst, ?_, ?_⟩
    · simpa [htaken] using hlow
    · simp [htaken, Conn.received]

/-- A `FIN` that `tcp_input` takes comes behind the last byte of the stream. -/
theorem Inv.fin (hst : c.socket.state = .established)
    (hg : g.Consistent stream) (hrst : g.rst = false) (hm : Op.Meets irs c (.segment g))
    (hfin : g.fin = true)
    (hgte : SequenceGte (u32 (irs + (c.received.length + taken c.socket (g.packet stream irs))))
      (g.packet stream irs).highestSequence) :
    c.received.length + taken c.socket (g.packet stream irs) = stream.length := by
  obtain ⟨-, hlen, hend⟩ := hg
  have hend := hend hfin
  obtain ⟨hdata, hfar⟩ := hm hrst hst
  obtain ⟨hfar, hwin⟩ := hfar hfin
  have hle : c.received.length ≤ stream.length := h.intact.1.length_le
  have hlow : c.socket.rxWinLow = u32 (irs + c.received.length) := by
    simpa [(h.receiving hst).2] using h.intact.2.1
  have hhigh : (g.packet stream irs).highestSequence =
      u32 (irs + (g.pos + if 0 < g.len then g.len - 1 else 0)) := by
    change u32 (u32 (irs + g.pos) + if 0 < g.len then g.len - 1 else 0) = _
    simp only [u32]
    omega
  rw [hhigh, sequenceGte_iff, sub32_add_left] at hgte
  by_cases hpos : 0 < g.len
  · rw [if_pos hpos] at hgte
    by_cases hin : InOrder c.socket (u32 (irs + g.pos)) g.len
    · -- taken, and not one byte short
      have htaken : taken c.socket (g.packet stream irs) =
          min (sub32 c.socket.rxWinHigh c.socket.rxWinLow) g.len := if_pos ⟨hpos, hin⟩
      have hat := hdata hpos hin
      have hwin := hwin hat
      rw [htaken] at hgte ⊢
      rw [hat] at hgte
      generalize sub32 c.socket.rxWinHigh c.socket.rxWinLow = win at *
      simp only [sub32, u32] at hgte
      omega
    · -- dropped, so it lies before the low edge or ahead of it
      have htaken : taken c.socket (g.packet stream irs) = 0 := if_neg fun h => hin h.2
      rw [InOrder, sequenceLte_iff, sequenceGte_iff, hlow, sub32_add_left,
        show sub32 (u32 (irs + g.pos) + g.len) 1 = u32 (irs + (g.pos + (g.len - 1))) by
          simp only [sub32, u32]; omega, sub32_add_left] at hin
      rw [htaken] at hgte ⊢
      simp only [sub32, u32] at hgte hin
      omega
  · have htaken : taken c.socket (g.packet stream irs) = 0 := if_neg fun h => hpos h.1
    rw [if_neg hpos, htaken] at hgte
    rw [htaken]
    simp only [sub32, u32] at hgte
    omega

/-- **A segment on an established connection.** -/
theorem Inv.established (hst : c.socket.state = .established)
    (lvl : ℕ) (hw : 32 ≤ w) (hg : g.Consistent stream) (hrst : g.rst = false)
    (hm : Op.Meets irs c (.segment g)) :
    ∃ c', step w lvl stream irs c (.segment g) = some c' ∧ Inv stream irs c' := by
  obtain ⟨s, hs, hrec, hst', hlow, hcont⟩ := h.data hst lvl hw hg hrst hm
  have hfinned := (h.receiving hst).2
  have hle := h.taken_le hst hg hrst hm
  have hfin := h.fin hst hg hrst hm
  generalize taken c.socket (g.packet stream irs) = n at hlow hcont hle hfin
  -- what is received now, and how much of it there is
  have hpre : c.delivered ++ Cbuf.contents s.rxBuffer <+: stream := by
    obtain ⟨rest, hrest⟩ := h.intact.1
    rw [hcont, ← hrest, List.drop_left]
    exact (List.prefix_append_right_inj _).2 (List.take_prefix _ _)
  have hcount : (c.delivered ++ Cbuf.contents s.rxBuffer).length = c.received.length + n := by
    rw [hcont, List.length_append, List.length_take, List.length_drop]
    omega
  have hinput : tcpInput w lvl c.socket (g.packet stream irs) =
      some (if g.fin = true ∧ SequenceGte s.rxWinLow (g.packet stream irs).highestSequence then
        { sendAck { s with rxWinLow := u32 (s.rxWinLow + 1) } with
          state := .closeWait, rxEvent := true }
      else s) := by
    rw [tcpInput, if_neg (by simp [Segment.packet, hrst]), hst]
    simp only [establishedInput]
    rw [show (g.packet stream irs).len = g.len from rfl,
      show (g.packet stream irs).seqNum = u32 (irs + g.pos) from rfl, hs, Option.map_some]
    rfl
  rw [step, hinput, Option.map_some]
  refine ⟨_, rfl, ?_⟩
  split_ifs with hclose
  · have hall := hfin hclose.1 (hlow ▸ hclose.2)
    obtain ⟨k, hk⟩ : ∃ k, sendAck { s with rxWinLow := u32 (s.rxWinLow + 1) } =
        { s with rxWinLow := u32 (s.rxWinLow + 1), rxWinHigh := k } := ⟨_, sendAck_eq _⟩
    rw [hk]
    refine ⟨⟨hrec.wf, hrec.pow, hrec.size⟩, .inr (.inl rfl), by simp, hpre, ?_, fun _ => ?_⟩
    · rw [Conn.received, hcount, hlow]
      simp [hst, u32, Nat.add_assoc]
    · exact hpre.eq_of_length (hcount.trans hall)
  · refine ⟨hrec.toBuffered, .inl hst', fun _ => ⟨hrec, by simp [hst', hfinned]⟩, ?_⟩
    refine ⟨hpre, ?_, by simp [hst', hfinned]⟩
    rw [Conn.received, hcount]
    simpa [hst', hfinned] using hlow

/-- Sending leaves what was received alone. -/
theorem Inv.send {s : Socket} (hhigh : s = { c.socket with rxWinHigh := s.rxWinHigh })
    (hrec : Receiving c.socket → Receiving s) : Inv stream irs { c with socket := s } := by
  rw [hhigh] at hrec ⊢
  exact ⟨⟨h.buffered.wf, h.buffered.pow, h.buffered.size⟩, h.state,
    fun hst => ⟨hrec (h.receiving hst).1, (h.receiving hst).2⟩, h.intact⟩

/-- **One step.**  Under the condition every step is taken and keeps the invariant. -/
theorem Inv.step (lvl : ℕ) (hw : 32 ≤ w) {op : Op}
    (hop : op.Consistent stream) (hm : op.Meets irs c) :
    ∃ c', step w lvl stream irs c op = some c' ∧ Inv stream irs c' := by
  cases op with
  | segment g =>
    by_cases hrst : g.rst = true
    · refine ⟨_, by rw [Tcp.step, tcpInput, if_pos (by exact hrst), Option.map_some], ?_⟩
      have hclose : tcpRemoteClose c.socket =
          { c.socket with state := .closed, rxEvent := (tcpRemoteClose c.socket).rxEvent } := by
        unfold tcpRemoteClose
        split_ifs with hc
        · simp only [← hc]
        · rfl
      rw [hclose]
      refine ⟨⟨h.buffered.wf, h.buffered.pow, h.buffered.size⟩, .inr (.inr rfl), by simp, ?_⟩
      rw [show (State.closed == State.closeWait) = false from rfl, Bool.and_false, Bool.or_false]
      exact h.intact
    · have hrst : g.rst = false := by simpa using hrst
      rcases h.state with hst | hst | hst
      · exact h.established hst lvl hw hop hrst hm
      · have hinput : tcpInput w lvl c.socket (g.packet stream irs) =
            some (if g.fin then sendAck c.socket else c.socket) := by
          rw [tcpInput, if_neg (by simp [Segment.packet, hrst]), hst]
          rfl
        refine ⟨_, by rw [Tcp.step, hinput, Option.map_some], ?_⟩
        simp only [hst, show (State.closeWait == State.established) = false from rfl,
          Bool.false_and, Bool.or_false]
        split_ifs
        · exact h.send (sendAck_eq _) Receiving.sendAck
        · exact h
      · have hinput : tcpInput w lvl c.socket (g.packet stream irs) = some c.socket := by
          rw [tcpInput, if_neg (by simp [Segment.packet, hrst]), hst]
        refine ⟨_, by rw [Tcp.step, hinput, Option.map_some], ?_⟩
        simp only [hst, show (State.closed == State.established) = false from rfl,
          Bool.false_and, Bool.or_false]
        exact h
  | read len =>
    obtain ⟨s, a, hs, hbuf, hrec, hst, hlow, hcont⟩ := tcpRead_spec h.buffered lvl len
    refine ⟨_, by rw [Tcp.step, hs, Option.map_some], hbuf, hst ▸ h.state, ?_, ?_⟩
    · intro he
      obtain ⟨hr, hf⟩ := h.receiving (hst ▸ he)
      exact ⟨(hrec hr).1, hf⟩
    · have hsame : c.delivered ++ a.data ++ Cbuf.contents s.rxBuffer = c.received := by
        rw [List.append_assoc, hcont, Conn.received]
      refine ⟨?_, ?_, fun hf => ?_⟩
      · rw [Conn.received, hsame]
        exact h.intact.1
      · rw [hlow, Conn.received, hsame]
        exact h.intact.2.1
      · rw [Conn.received, hsame]
        exact h.intact.2.2 hf
  | ackTimeout => exact ⟨_, rfl, h.send (sendAck_eq _) Receiving.sendAck⟩
  | transmit => exact ⟨_, rfl, h.send (tcpSocketSend_eq _) Receiving.tcpSocketSend⟩

end

/-! ### Runs -/

/-- A connection after the handshake. -/
def start (irs : ℕ) (raw : ℕ → UInt8) : Conn := ⟨acceptSocket irs raw, [], false⟩

theorem inv_start (stream : List UInt8) (irs : ℕ) (raw : ℕ → UInt8) :
    Inv stream irs (start irs raw) := by
  have hlog : log2Uint defaultRxWindowSize = 13 := by decide
  have hb : Cbuf.Wf (start irs raw).socket.rxBuffer := by
    refine ⟨⟨?_, ?_, ?_⟩, ?_⟩
    · exact hlog.trans_le (by norm_num)
    · exact Nat.two_pow_pos _
    · exact Nat.two_pow_pos _
    · simp [start, acceptSocket]
  have hbuf : Buffered (start irs raw).socket := ⟨hb, hlog, rfl⟩
  have hused : Cbuf.cbufSpaceUsed (start irs raw).socket.rxBuffer = 0 :=
    hb.used_eq_zero_iff.2 rfl
  have hnil : (start irs raw).received = [] := by
    rw [Conn.received, hb.contents_eq_nil_iff.2 rfl]
    rfl
  refine ⟨hbuf, .inl rfl, fun _ => ⟨⟨hbuf, u32_lt _, u32_lt _, ?_⟩, rfl⟩, ?_, ?_, by simp [start]⟩
  · rw [hused]
    simp only [start, acceptSocket, defaultRxWindowSize, sub32, u32]
    omega
  · rw [hnil]
    exact List.nil_prefix
  · rw [hnil]
    simp [start, acceptSocket]

/-- **The receive stream is intact** in every state of every run whose segments carry
bytes of the stream and whose steps meet the condition, and no such run stops. -/
theorem receive_stream_intact (w lvl : ℕ) (hw : 32 ≤ w) (stream : List UInt8) (irs : ℕ)
    (raw : ℕ → UInt8) (ops : List Op) (hops : Machine.Along (step w lvl stream irs)
      (fun c op => op.Consistent stream ∧ op.Meets irs c) (start irs raw) ops) :
    (∃ c, Machine.run (step w lvl stream irs) (start irs raw) ops = some c) ∧
      Machine.Throughout (step w lvl stream irs) (Conn.Intact stream irs) (start irs raw) ops := by
  constructor
  · exact hops.run_isSome (fun c op hc hop => hc.step lvl hw hop.1 hop.2) (inv_start stream irs raw)
  · refine (hops.throughout (fun c op c' hc hop hstep => ?_) (inv_start stream irs raw)).imp
      fun c hc => hc.intact
    obtain ⟨c₁, h₁, hc₁⟩ := hc.step lvl hw hop.1 hop.2
    obtain rfl : c₁ = c' := Option.some.inj (h₁.symm.trans hstep)
    exact hc₁

/-- Two bytes whose sequence numbers wrap, and a read. -/
theorem receive_stream_intact_two :
    (∃ c, Machine.run (step 64 2 [1, 2, 3] (2 ^ 32 - 1)) (start (2 ^ 32 - 1) fun _ => 0)
      [.segment ⟨0, 2, false, false, true, fun _ => 0⟩, .read 5] = some c) ∧
      Machine.Throughout (step 64 2 [1, 2, 3] (2 ^ 32 - 1)) (Conn.Intact [1, 2, 3] (2 ^ 32 - 1))
        (start (2 ^ 32 - 1) fun _ => 0)
        [.segment ⟨0, 2, false, false, true, fun _ => 0⟩, .read 5] := by
  refine receive_stream_intact 64 2 (by norm_num) _ _ _ _ ⟨⟨⟨by decide, by norm_num, by simp⟩, ?_⟩,
    fun _ _ => ⟨⟨trivial, trivial⟩, fun _ _ => trivial⟩⟩
  exact fun _ _ => ⟨fun _ _ => rfl, by simp⟩

/-- The receive stream is intact throughout every run whose segments carry bytes of
the stream. -/
def StreamIntegrity (w lvl : ℕ) : Prop :=
  ∀ (stream : List UInt8) (irs : ℕ) (raw : ℕ → UInt8) (ops : List Op),
    (∀ op ∈ ops, op.Consistent stream) →
      Machine.Throughout (step w lvl stream irs) (Conn.Intact stream irs) (start irs raw) ops

/-- A segment without `FIN` or `RST` on an established connection is its data. -/
theorem step_data {w lvl : ℕ} (hst : c.socket.state = .established)
    (hlen : 0 < g.len) (hrst : g.rst = false) (hfin : g.fin = false)
    (hs : handleData w lvl c.socket (g.packet stream irs).data g.len (u32 (irs + g.pos)) = some s)
    (hst' : s.state = .established) :
    step w lvl stream irs c (.segment g) = some { c with socket := s } := by
  have hinput : tcpInput w lvl c.socket (g.packet stream irs) = some s := by
    rw [tcpInput, if_neg (by simp [Segment.packet, hrst]), hst]
    simp only [establishedInput]
    rw [show (g.packet stream irs).len = g.len from rfl, if_pos hlen,
      show (g.packet stream irs).seqNum = u32 (irs + g.pos) from rfl, hs, Option.map_some,
      show (g.packet stream irs).fin = false from hfin]
    simp
  rw [step, hinput, Option.map_some]
  simp [hst']

/-- Bytes 1 and 2 of a stream of three, after bytes 0 and 1. -/
theorem not_streamIntegrity (hw : w = 32 ∨ w = 64) : ¬ StreamIntegrity w 1 := by
  intro hall
  have h := hall [1, 2, 3] 0 (fun _ => 0) [.segment ⟨0, 2, false, false, true, fun _ => 0⟩,
    .segment ⟨1, 2, false, false, true, fun _ => 0⟩] (by
      intro op hop
      simp only [List.mem_cons, List.not_mem_nil, or_false] at hop
      rcases hop with rfl | rfl
      · exact ⟨by decide, by norm_num, by simp⟩
      · exact ⟨by decide, by norm_num, by simp⟩)
  have hrec₀ := ((inv_start [1, 2, 3] 0 fun _ => 0).receiving rfl).1
  have hw₀ : subW w 2 0 = 2 := by
    rcases hw with rfl | rfl <;> rfl
  have hin₀ : InOrder (start 0 fun _ => 0).socket (u32 (0 + 0)) 2 := by decide
  have hn₀ : 2 = min (sub32 (start 0 fun _ => 0).socket.rxWinHigh
      (start 0 fun _ => 0).socket.rxWinLow)
      (subW w 2 (sub32 (u32 (0 + 0)) (start 0 fun _ => 0).socket.rxWinLow)) := by
    rw [show sub32 (u32 (0 + 0)) (start 0 fun _ => 0).socket.rxWinLow = 0 by decide, hw₀]
    decide
  -- the first segment is taken as it should be
  obtain ⟨s, hs, hrec, hst, hlow, hwin, hcont⟩ := handleData_inOrder w 1 hrec₀
    (Segment.packet [1, 2, 3] 0 ⟨0, 2, false, false, true, fun _ => 0⟩).data (by norm_num) hin₀
    (fun h => absurd h (by norm_num)) hn₀
  have hlow : s.rxWinLow = 2 := hlow.trans (by decide)
  have hwin : 8191 ≤ 2 + sub32 s.rxWinHigh 2 := by
    rw [hlow] at hwin
    exact le_trans (by decide) hwin
  -- of the second, which overlaps it, three bytes or more are taken from behind `offset`
  have hin : InOrder s (u32 (0 + 1)) 2 := by
    rw [InOrder, hlow]
    decide
  obtain ⟨s', hs', -, hst', -, -, hcont'⟩ := handleData_inOrder w 1 hrec
    (Segment.packet [1, 2, 3] 0 ⟨1, 2, false, false, true, fun _ => 0⟩).data (by norm_num) hin
    (fun h => absurd h (by norm_num)) rfl
  have hmany : 3 ≤ min (sub32 s.rxWinHigh s.rxWinLow)
      (subW w 2 (sub32 (u32 (0 + 1)) s.rxWinLow)) := by
    rw [hlow, show sub32 (u32 (0 + 1)) 2 = 2 ^ 32 - 1 by decide, le_min_iff]
    refine ⟨by omega, ?_⟩
    rcases hw with rfl | rfl <;> decide
  have hstep := step_data (c := start 0 fun _ => 0) rfl (by norm_num) rfl rfl hs hst
  have h₁ := h.2 _ hstep
  have h₂ := h₁.2 _ (step_data hst (by norm_num) rfl rfl hs' (hst'.trans hst))
  have hlen := h₂.1.length_le
  simp only [Conn.received, hcont', hcont, List.length_append, Memory.length_window,
    List.length_cons, List.length_nil] at hlen
  omega

/-- **A retransmission that overlaps corrupts the stream**, with addresses of 32 and of
64 bits. -/
theorem overlap_corrupts : ¬ StreamIntegrity 32 1 ∧ ¬ StreamIntegrity 64 1 :=
  ⟨not_streamIntegrity (.inl rfl), not_streamIntegrity (.inr rfl)⟩

end Tcp
end LittleKernel
