/-
# The windows of a TCP connection: `lib/minip/tcp.c`

The window we advertise, `rx_win_low .. rx_win_high`, never promises more than the
receive buffer has room for, and its right edge never moves back: `tcp_socket_send`
computes the edge anew from what the buffer holds and keeps the old one where the
new one would lie before it (`Receiving`, `EdgeKept`).  The one step that moves the
low edge without storing a byte, the `FIN` of the peer, is followed by an
acknowledgement that moves the right edge as well.

The other direction is only half there.  `handle_ack` records the right edge of
the window of the peer in `tx_win_high`, unless the acknowledgement is one it has seen,
but `tcp_write_pending_data` sends all that is pending and `tcp_retransmit` up to `mss`
bytes, and neither looks at it: `zero_window_overrun` sends a byte to a peer that has no
room.  What is sent stays inside the window that was advertised last when the writer and
the timer keep it there (`window_discipline`).
-/

import LittleKernel.Minip.Transmit

namespace LittleKernel
namespace Tcp

open Word

/-- The window we advertise fits in the free space of the receive buffer. -/
def Link.RxFits (c : Link) : Prop :=
  sub32 c.socket.rx.rxWinHigh c.socket.rx.rxWinLow ≤ Cbuf.cbufSpaceAvail c.socket.rx.rxBuffer

/-- No byte of the segment has a sequence number at or beyond the right edge `edge` of
the window of the peer. -/
def Sent.InWindow (edge : ℕ) (g : Sent) : Prop :=
  ∀ i < g.data.length, ¬ SequenceGte (u32 (g.sequence + i)) edge

instance (edge : ℕ) (g : Sent) : Decidable (g.InWindow edge) := inferInstanceAs (Decidable (∀ i < _, _))

/-- Both windows are respected: every segment ends inside the window that the peer had
advertised last when it was sent. -/
structure Link.Disciplined (c : Link) : Prop where
  rx : c.RxFits
  tx : ∀ g ∈ c.sent, g.2.2.InWindow g.2.1

/-- The right edge of the window we advertise has not moved back. -/
def EdgeKept (s s' : Socket) : Prop := SequenceGte s'.rxWinHigh s.rxWinHigh

/-- The condition under which a step sends nothing beyond the window of the peer: a
pass of `tcp_write` that takes bytes leaves at most a window of them in the buffer,
and what is sent again is at most a window. -/
def Event.InWindow (c : Link) : Event → Prop
  | .write rest => c.socket.tx.txEvent = true →
      (c.socket.rx.state = .established ∨ c.socket.rx.state = .closeWait) →
      let tx := c.socket.tx
      let n := min (tx.txBufferSize - tx.txBufferOffset) rest.length
      n ≠ 0 → tx.txBufferOffset + n ≤ sub32 c.edge tx.txWinLow
  | .retransmitTimeout =>
    (c.socket.rx.state = .established ∨ c.socket.rx.state = .closeWait) →
    let tx := c.socket.tx
    min c.socket.rx.mss (sub32 tx.txHighestSeq tx.txWinLow) ≤ sub32 c.edge tx.txWinLow
  | _ => True

/-! ### The window we advertise -/

variable {s : Socket}

theorem Receiving.rxFits (h : Receiving s) :
    sub32 s.rxWinHigh s.rxWinLow ≤ Cbuf.cbufSpaceAvail s.rxBuffer := by
  have := h.fits
  rw [h.avail]
  omega

/-- The low edge moves up by `n` and the right edge does not move back. -/
structure Advances (n : ℕ) (s s' : Socket) : Prop where
  receiving : Receiving s'
  low : s'.rxWinLow = u32 (s.rxWinLow + n)
  window_le : sub32 s.rxWinHigh s.rxWinLow ≤ n + sub32 s'.rxWinHigh s'.rxWinLow

theorem Advances.of_eq {s s' : Socket} (h' : Receiving s') (hlow : s'.rxWinLow = s.rxWinLow)
    (hhigh : s'.rxWinHigh = s.rxWinHigh) : Advances 0 s s' := by
  refine ⟨h', ?_, ?_⟩
  · rw [Nat.add_zero, ← hlow, u32_of_lt h'.low_lt]
  · rw [hlow, hhigh]
    omega

theorem Advances.trans {m n : ℕ} {s s' s'' : Socket} (h : Advances m s s')
    (h' : Advances n s' s'') : Advances (m + n) s s'' := by
  refine ⟨h'.receiving, ?_, ?_⟩
  · rw [h'.low, h.low, u32, u32, u32, Nat.mod_add_mod, Nat.add_assoc]
  · have := h.window_le
    have := h'.window_le
    omega

theorem Advances.edgeKept {s s' : Socket} {n : ℕ} (h : Receiving s) (ha : Advances n s s')
    (hn : n ≤ 8192) : EdgeKept s s' := by
  have hl := h.low_lt
  have hh := h.high_lt
  have hh' := ha.receiving.high_lt
  have hfits := h.fits
  have hfits' := ha.receiving.fits
  have hwin := ha.window_le
  rw [EdgeKept, sequenceGte_iff]
  rw [ha.low] at hwin hfits'
  simp only [sub32, u32] at hwin hfits hfits' ⊢
  omega

theorem Receiving.sendAck_advances (h : Receiving s) : Advances 0 s (Tcp.sendAck s) := by
  refine ⟨h.sendAck, ?_, ?_⟩
  · rw [sendAck_rxWinLow, Nat.add_zero, u32_of_lt h.low_lt]
  · rw [sendAck_rxWinLow, Nat.zero_add]
    exact h.window_le_sendAck

theorem Receiving.tcpSocketSend_advances (h : Receiving s) :
    Advances 0 s (Tcp.tcpSocketSend s) := by
  refine ⟨h.tcpSocketSend, ?_, ?_⟩
  · rw [tcpSocketSend_rxWinLow, Nat.add_zero, u32_of_lt h.low_lt]
  · rw [tcpSocketSend_rxWinLow, Nat.zero_add]
    exact h.window_le_tcpSocketSend

theorem Receiving.iterate_advances (h : Receiving s) (n : ℕ) :
    Advances 0 s ((Tcp.tcpSocketSend)^[n] s) := by
  induction n generalizing s with
  | zero => exact .of_eq h rfl rfl
  | succ n ih =>
    rw [Function.iterate_succ_apply]
    exact h.tcpSocketSend_advances.trans (ih h.tcpSocketSend)

/-- **The data of a segment**, whether or not it overlaps what was received before. -/
theorem Receiving.handleData_advances {w lvl : ℕ} {s s' : Socket} (h : Receiving s)
    {data : ℕ → UInt8} {len sequence : ℕ} (hlen : 0 < len)
    (hs : handleData w lvl s data len sequence = some s') :
    ∃ n ≤ 8191, Advances n s s' ∧ s'.state = s.state := by
  by_cases hin : InOrder s sequence len
  · have hassert : DebugAssert lvl (sub32 sequence s.rxWinLow < len) := by
      by_contra hno
      rw [handleData, if_pos (.of hlen), if_pos hin] at hs
      dsimp only at hs
      rw [if_neg hno] at hs
      exact absurd hs (by simp)
    obtain ⟨s₁, hs₁, hrec, hst, hlow, hwin, -⟩ :=
      handleData_inOrder w lvl h data hlen hin hassert rfl
    obtain rfl : s₁ = s' := Option.some.inj (hs₁.symm.trans hs)
    have hfits := h.fits
    exact ⟨_, (Nat.min_le_left _ _).trans (by omega), ⟨hrec, hlow, hwin⟩, hst⟩
  · rw [handleData_dropped data hlen hin] at hs
    cases hs
    exact ⟨0, by omega, h.sendAck_advances, sendAck_state s⟩

/-- **The `FIN` of the peer** takes a sequence number but no room: the acknowledgement
that follows moves the right edge as well, also where the window was closed. -/
theorem Receiving.fin_advances (h : Receiving s) (hst : s.state = .established) :
    Advances 1 s (Tcp.sendAck { s with rxWinLow := u32 (s.rxWinLow + 1) }) := by
  have hu := h.used_le
  have hl := h.low_lt
  have hh := h.high_lt
  have hfits := h.fits
  have hnew : sub32 (sub32 (u32 (s.rxWinLow + 1) + s.rxWinSize) (Cbuf.cbufSpaceUsed s.rxBuffer)) 1 =
      u32 (u32 (s.rxWinLow + 1) + (8191 - Cbuf.cbufSpaceUsed s.rxBuffer)) := by
    simp only [h.size, sub32, u32]
    omega
  unfold Tcp.sendAck Tcp.tcpSocketSend
  dsimp only
  rw [hnew, if_neg (by simp [hst]), if_pos]
  · refine ⟨⟨⟨h.wf, h.pow, h.size⟩, u32_lt _, u32_lt _, ?_⟩, rfl, ?_⟩
    · simp only [sub32, u32]
      omega
    · simp only [sub32, u32] at hfits ⊢
      omega
  · rw [sequenceGte_iff]
    simp only [sub32, u32] at hfits ⊢
    omega

/-- **`tcp_input`**, of a socket that its owner has not closed. -/
theorem Receiving.tcpInput_advances {w lvl : ℕ} {s s' : Socket} {p : Packet} (h : Receiving s)
    (hst : s.state = .established ∨ s.state = .closeWait ∨ s.state = .closed)
    (hs : tcpInput w lvl s p = some s') :
    ∃ n ≤ 8192, Advances n s s' ∧
      (s'.state = .established ∨ s'.state = .closeWait ∨ s'.state = .closed) := by
  unfold tcpInput at hs
  by_cases hrst : p.rst = true
  · rw [if_pos hrst] at hs
    cases hs
    refine ⟨0, by omega, ?_⟩
    unfold tcpRemoteClose
    split_ifs with hc
    · exact ⟨.of_eq h rfl rfl, .inr (.inr hc)⟩
    · exact ⟨.of_eq ⟨⟨h.wf, h.pow, h.size⟩, h.low_lt, h.high_lt, h.fits⟩ rfl rfl,
        .inr (.inr rfl)⟩
  rw [if_neg hrst] at hs
  rcases hst with hst | hst | hst <;> rw [hst] at hs <;> dsimp only at hs
  · obtain ⟨r, hr, rfl⟩ := Option.map_eq_some_iff.1 hs
    obtain ⟨n, hn, ha, hstr⟩ : ∃ n ≤ 8191, Advances n s r ∧ r.state = .established := by
      by_cases hlen : 0 < p.len
      · rw [if_pos hlen] at hr
        obtain ⟨n, hn, ha, hstr⟩ := h.handleData_advances hlen hr
        exact ⟨n, hn, ha, hstr.trans hst⟩
      · rw [if_neg hlen] at hr
        cases hr
        exact ⟨0, by omega, .of_eq h rfl rfl, hst⟩
    split_ifs
    · have hfin := ha.trans (ha.receiving.fin_advances hstr)
      refine ⟨n + 1, by omega, ⟨?_, hfin.low, hfin.window_le⟩, .inr (.inl rfl)⟩
      obtain ⟨⟨hwf, hpow, hsize⟩, hl, hh, hfits⟩ := hfin.receiving
      exact ⟨⟨hwf, hpow, hsize⟩, hl, hh, hfits⟩
    · exact ⟨n, by omega, ha, .inl hstr⟩
  · cases hs
    refine ⟨0, by omega, ?_⟩
    split_ifs
    · exact ⟨h.sendAck_advances, .inr (.inl (by rw [sendAck_state, hst]))⟩
    · exact ⟨.of_eq h rfl rfl, .inr (.inl hst)⟩
  · cases hs
    exact ⟨0, by omega, .of_eq h rfl rfl, .inr (.inr hst)⟩

/-- **`tcp_read`.** -/
theorem Receiving.tcpRead_advances {lvl len : ℕ} {r : Socket × Answer}
    (h : Receiving s) (hr : tcpRead lvl s len = some r) :
    Advances 0 s r.1 ∧ r.1.state = s.state := by
  obtain ⟨s', a, hs, -, hrec, hst, hlow, -⟩ := tcpRead_spec h.toBuffered lvl len
  obtain rfl : (s', a) = r := Option.some.inj (hs.symm.trans hr)
  obtain ⟨hrec', hwin⟩ := hrec h
  refine ⟨⟨hrec', ?_, by rwa [Nat.zero_add]⟩, hst⟩
  rw [hlow, Nat.add_zero, u32_of_lt h.low_lt]

/-! ### Runs of the receiving half -/

/-- The invariant of the receiving half. -/
structure Link.RxInv (iss : ℕ) (c : Link) : Prop extends c.Inv iss where
  receiving : Receiving c.socket.rx
  state : c.socket.rx.state = .established ∨ c.socket.rx.state = .closeWait ∨
    c.socket.rx.state = .closed

/-- A step that sends moves the right edge of the window only. -/
theorem Link.RxInv.sendsOut {iss acked : ℕ} {c : Link} (h : c.RxInv iss) {accepted : List UInt8}
    {s : TcpSocket} {sent : List Sent} (hout : SendsOut iss accepted acked c.socket s sent) :
    Receiving s.rx ∧ s.rx.state = c.socket.rx.state ∧ EdgeKept c.socket.rx s.rx := by
  obtain ⟨n, hn⟩ := hout.rx
  obtain ⟨k, hk⟩ := iterate_tcpSocketSend_eq n c.socket.rx
  have ha := h.receiving.iterate_advances n
  rw [← hn] at ha
  exact ⟨ha.receiving, by rw [hn, hk], ha.edgeKept h.receiving (by omega)⟩

/-- **One step** of the receiving half, whatever the sending half does. -/
theorem Link.RxInv.step {w lvl iss : ℕ} {c c' : Link} {e : Event} (h : c.RxInv iss)
    (hstep : c.step w lvl iss e = some c') :
    c'.RxInv iss ∧ EdgeKept c.socket.rx c'.socket.rx := by
  have hinv := h.toInv.step hstep
  cases e with
  | segment p =>
    obtain ⟨s, hs, rfl⟩ := Option.map_eq_some_iff.1 hstep
    obtain ⟨tx, -, hs⟩ := Option.bind_eq_some_iff.1 hs
    obtain ⟨rx, hrx, rfl⟩ := Option.map_eq_some_iff.1 hs
    obtain ⟨n, hn, ha, hst⟩ := h.receiving.tcpInput_advances h.state hrx
    exact ⟨⟨hinv, ha.receiving, hst⟩, ha.edgeKept h.receiving hn⟩
  | read len =>
    obtain ⟨r, hr, rfl⟩ := Option.map_eq_some_iff.1 hstep
    obtain ⟨ha, hst⟩ := h.receiving.tcpRead_advances hr
    exact ⟨⟨hinv, ha.receiving, hst ▸ h.state⟩, ha.edgeKept h.receiving (by omega)⟩
  | write rest =>
    obtain ⟨r, hr, rfl⟩ := Option.map_eq_some_iff.1 hstep
    obtain ⟨r', hr', hout, -⟩ := h.sends.tcpWrite h.mss lvl rest
    obtain rfl : r' = r := Option.some.inj (hr'.symm.trans hr)
    obtain ⟨hrec, hst, hkeep⟩ := h.sendsOut hout
    exact ⟨⟨hinv, hrec, hst ▸ h.state⟩, hkeep⟩
  | retransmitTimeout =>
    cases hstep
    obtain ⟨hrec, hst, hkeep⟩ := h.sendsOut h.sends.tcpRetransmit
    exact ⟨⟨hinv, hrec, hst ▸ h.state⟩, hkeep⟩
  | ackTimeout =>
    cases hstep
    have ha := h.receiving.sendAck_advances
    exact ⟨⟨hinv, ha.receiving, by simpa using h.state⟩, ha.edgeKept h.receiving (by omega)⟩

/-! ### The window of the peer -/

/-- A segment that ends inside the window; `low` is the low edge it is measured from. -/
theorem Sent.inWindow_of {edge : ℕ} {g : Sent} (low : ℕ)
    (hend : sub32 g.sequence low + g.data.length ≤ sub32 edge low)
    (hwin : sub32 edge low ≤ 65535) : g.InWindow edge := by
  intro i hi
  rw [sequenceGte_iff]
  simp only [sub32, u32] at hend hwin ⊢
  omega

/-- The invariant of a connection whose steps stay inside the window. -/
structure Link.TxInv (iss : ℕ) (c : Link) : Prop extends c.Inv iss where
  window_le : sub32 c.edge c.socket.tx.txWinLow ≤ 65535
  inWindow : ∀ g ∈ c.sent, g.2.2.InWindow g.2.1

/-- An acknowledgement leaves at most the window it advertises, or the one there was. -/
theorem sub32_advertised_le {iss accepted acked edge ackNum winSize : ℕ} (hsize : winSize ≤ 65535)
    (h : sub32 edge (iss + acked) ≤ 65535) :
    sub32 (advertised iss accepted acked edge ackNum winSize)
      (iss + ackedBy iss accepted acked ackNum) ≤ 65535 := by
  unfold advertised ackedBy
  split_ifs
  · simp only [sub32, u32]
    omega
  · exact h

/-- A step that sends inside the window. -/
theorem Link.TxInv.sendsOut {iss : ℕ} {c : Link} (h : c.TxInv iss) {more : List UInt8}
    {s : TcpSocket} {sent : List Sent}
    (hout : SendsOut iss (c.accepted ++ more) c.acked c.socket s sent)
    (hin : ∀ g ∈ sent, g.InWindow c.edge) :
    Link.TxInv iss ⟨s, c.accepted ++ more, c.acked, c.edge,
        c.sent ++ sent.map fun g => (c.acked, c.edge, g)⟩ := by
  refine ⟨h.toInv.sendsOut hout, ?_, ?_⟩
  · rw [hout.sends.low, ← h.sends.low]
    exact h.window_le
  · intro g hg
    rcases List.mem_append.1 hg with hg | hg
    · exact h.inWindow g hg
    · obtain ⟨g', hg', rfl⟩ := List.mem_map.1 hg
      exact hin g' hg'

/-- **One step** that stays inside the window. -/
theorem Link.TxInv.step {w lvl iss : ℕ} {c c' : Link} {e : Event} (h : c.TxInv iss)
    (hok : e.InWindow c) (hstep : c.step w lvl iss e = some c') : c'.TxInv iss := by
  have hinv := h.toInv.step hstep
  cases e with
  | segment p =>
    obtain ⟨s, hs, rfl⟩ := Option.map_eq_some_iff.1 hstep
    refine ⟨hinv, ?_, h.inWindow⟩
    have hwin := h.window_le
    rw [h.sends.low, sub32_u32_right] at hwin
    rw [hinv.sends.low, sub32_u32_right]
    dsimp only
    split_ifs
    · have := p.winSize.toNat_lt
      exact sub32_advertised_le (by omega) hwin
    · exact hwin
  | read len =>
    obtain ⟨r, hr, rfl⟩ := Option.map_eq_some_iff.1 hstep
    exact ⟨hinv, h.window_le, h.inWindow⟩
  | write rest =>
    obtain ⟨r, hr, rfl⟩ := Option.map_eq_some_iff.1 hstep
    obtain ⟨r', hr', hout, htakes⟩ := h.sends.tcpWrite h.mss lvl rest
    obtain rfl : r' = r := Option.some.inj (hr'.symm.trans hr)
    refine h.sendsOut hout fun g hg => ?_
    -- the segments end where the accepted bytes end
    rcases htakes with hnone | ⟨hev, hst, h0, hn⟩
    · rw [hnone] at hg
      simp at hg
    have hroom := hok hev hst (hn ▸ h0)
    rw [← hn] at hroom
    obtain ⟨hend, -⟩ := hout.carries g hg
    have hoff := h.sends.offset
    rw [List.length_append, List.length_take] at hend
    refine Sent.inWindow_of c.socket.tx.txWinLow ?_ h.window_le
    have hd : sub32 g.sequence c.socket.tx.txWinLow = sub32 g.sequence (iss + c.acked) := by
      rw [h.sends.low, sub32_u32_right]
    rw [hd]
    omega
  | retransmitTimeout =>
    cases hstep
    have hout := h.sends.tcpRetransmit
    rw [← List.append_nil c.accepted] at hout
    have hin : ∀ g ∈ c.socket.tcpRetransmit.2, g.InWindow c.edge := by
      unfold TcpSocket.tcpRetransmit
      dsimp only
      split_ifs with hst hnone
      · simp
      · simp
      · refine List.forall_mem_singleton.2 (Sent.inWindow_of c.socket.tx.txWinLow ?_ h.window_le)
        have hroom := hok (by by_contra hno; exact hst (not_or.1 hno))
        have h0 : sub32 c.socket.tx.txWinLow c.socket.tx.txWinLow = 0 := by
          simp only [sub32, u32]
          omega
        simpa [TcpSocket.tcpSocketSend, h0] using hroom
    have hkeep := h.sendsOut hout hin
    rw [List.append_nil] at hkeep
    exact hkeep
  | ackTimeout =>
    cases hstep
    exact ⟨hinv, h.window_le, h.inWindow⟩

/-! ### Runs -/

theorem Link.rxInv_start (irs iss : ℕ) (win : UInt16) (rxRaw txRaw : ℕ → UInt8) :
    (Link.start irs iss win rxRaw txRaw).RxInv iss :=
  ⟨inv_start irs iss win rxRaw txRaw, ((Tcp.inv_start [] irs rxRaw).receiving rfl).1, .inl rfl⟩

theorem Link.txInv_start (irs iss : ℕ) (win : UInt16) (rxRaw txRaw : ℕ → UInt8) :
    (Link.start irs iss win rxRaw txRaw).TxInv iss := by
  refine ⟨inv_start irs iss win rxRaw txRaw, ?_, by simp [start]⟩
  have := win.toNat_lt
  simp only [start, establishedSocket, sub32, u32]
  omega

/-- The right edge of the window we advertise moves back in no step. -/
def EdgeForward (w lvl iss : ℕ) (c : Link) (e : Event) : Prop :=
  ∀ c', c.step w lvl iss e = some c' → EdgeKept c.socket.rx c'.socket.rx

/-- **The windows of a connection.**  The window we advertise fits in the receive buffer in
every state of every run, and no step takes it back.  The window of the peer is respected as
well in every run whose writers and retransmissions stay inside the window that the peer
advertised last. -/
theorem window_discipline (w lvl irs iss : ℕ) (win : UInt16) (rxRaw txRaw : ℕ → UInt8)
    (events : List Event) :
    (Machine.Throughout (Link.step w lvl iss) Link.RxFits
        (Link.start irs iss win rxRaw txRaw) events ∧
      Machine.Along (Link.step w lvl iss) (EdgeForward w lvl iss)
        (Link.start irs iss win rxRaw txRaw) events) ∧
    (Machine.Along (Link.step w lvl iss) (fun c e => e.InWindow c)
        (Link.start irs iss win rxRaw txRaw) events →
      Machine.Throughout (Link.step w lvl iss) Link.Disciplined
        (Link.start irs iss win rxRaw txRaw) events) := by
  have hrx : Machine.Throughout (Link.step w lvl iss) (Link.RxInv iss)
      (Link.start irs iss win rxRaw txRaw) events :=
    Machine.throughout_inv (fun _ _ _ hc hstep => (hc.step hstep).1) events _
      (Link.rxInv_start irs iss win rxRaw txRaw)
  refine ⟨⟨hrx.imp fun c hc => hc.receiving.rxFits,
    hrx.along_of fun c e hc c' hstep => (hc.step hstep).2⟩, fun hok => ?_⟩
  have hboth : Machine.Throughout (Link.step w lvl iss) (fun c => c.RxInv iss ∧ c.TxInv iss)
      (Link.start irs iss win rxRaw txRaw) events :=
    hok.throughout (fun c e c' hc he hstep => ⟨(hc.1.step hstep).1, hc.2.step he hstep⟩)
      ⟨Link.rxInv_start irs iss win rxRaw txRaw, Link.txInv_start irs iss win rxRaw txRaw⟩
  exact hboth.imp fun c hc => ⟨hc.1.receiving.rxFits, hc.2.inWindow⟩

/-- Two bytes to a peer with room for a thousand, and a retransmission. -/
theorem window_discipline_two :
    Machine.Throughout (Link.step 64 2 7) Link.Disciplined
      (Link.start 3 7 1000 (fun _ => 0) fun _ => 0) [.write [1, 2], .retransmitTimeout] := by
  refine (window_discipline 64 2 3 7 1000 _ _ _).2 ⟨fun _ _ _ => by decide, fun c hc => ⟨fun _ => ?_,
    fun _ _ => trivial⟩⟩
  have hwin : ((Link.step 64 2 7 (Link.start 3 7 1000 (fun _ => 0) fun _ => 0)
      (.write [1, 2])).map fun c => (sub32 c.socket.tx.txHighestSeq c.socket.tx.txWinLow,
        sub32 c.edge c.socket.tx.txWinLow)) = some (2, 1000) := by
    decide +kernel
  rw [hc, Option.map_some] at hwin
  obtain ⟨hout, hhigh⟩ := Prod.mk.inj (Option.some.inj hwin)
  dsimp only
  rw [hout, hhigh]
  omega

/-- Both windows are respected in every run. -/
def WindowDiscipline (w lvl : ℕ) : Prop :=
  ∀ (irs iss : ℕ) (win : UInt16) (rxRaw txRaw : ℕ → UInt8) (events : List Event),
    Machine.Throughout (Link.step w lvl iss) Link.Disciplined
      (Link.start irs iss win rxRaw txRaw) events

/-- **Bytes sent into a closed window**: the peer accepts the connection with window `0`,
and the first byte written goes out with the sequence number of the right edge. -/
theorem zero_window_overrun : ¬ WindowDiscipline 64 2 := by
  intro h
  have hrun := h 3 7 0 (fun _ => 0) (fun _ => 0) [.write [1]]
  have hsent : ((Link.step 64 2 7 (Link.start 3 7 0 (fun _ => 0) fun _ => 0)
      (.write [1])).map Link.sent) = some [(0, 7, ⟨7, [1], false⟩)] := by
    decide +kernel
  obtain ⟨c, hc, hc'⟩ := Option.map_eq_some_iff.1 hsent
  have hin := (hrun.2 c hc).tx (0, 7, ⟨7, [1], false⟩) (by simp [hc'])
  exact absurd hin (by decide)

end Tcp
end LittleKernel
