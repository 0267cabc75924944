/-
# Receiving a packet

`minip_rx_driver_callback` of `lib/minip/minip.c` and what it hands a packet to:
`handle_ipv4_packet` with `send_ping_reply`, `udp_input` (`udp.c`) and `tcp_input` (`tcp.c`), and
`handle_arp_pkt`.  The packet is any part of any buffer, its bytes any bytes.

The outcome is what is sent and the ARP cache, or how the machine comes to a halt: by a read
outside the packet buffer, through `NULL`, or in a panic or an assertion.  What a packet does to
a TCP socket is `Tcp.TcpSocket.tcpInput`; here it is used for what `tcp_input` answers and for
what `handle_data` reads.  A call of a UDP listener is an outcome of its own.

The lengths of the headers are checked against each other and against the packet, and no header
is read outside of it.  But some packets bring the machine down (`rx_safe_iff`): an echo request
with more than 1472 bytes of payload, for which the reply has no room, or from an address that
is not in the ARP cache after the update, which is 0.0.0.0 or ends in 255 or finds no memory; a
TCP segment that starts before the window, which `handle_data` reads with an offset of the wrong
sign; and a datagram to a port with a `NULL` listener.
-/

import LittleKernel.Lib.Bytes
import LittleKernel.Minip.Arp
import LittleKernel.Minip.Pktbuf
import LittleKernel.Minip.Transmit

namespace LittleKernel
namespace Minip

open Arp Memory Bytes Word
open Tcp (TcpSocket TcpPacket)

/-! ### Fields -/

/-- A `uint16_t` in network order. -/
def be16 (l : List UInt8) (i : ℕ) : ℕ := (l.getD i 0).toNat * 256 + (l.getD (i + 1) 0).toNat

/-- A `uint32_t` in network order. -/
def be32 (l : List UInt8) (i : ℕ) : ℕ := be16 l i * 65536 + be16 l (i + 2)

/-- An address, which is kept as it lies in the packet. -/
def addr (l : List UInt8) (i : ℕ) : UInt32 := UInt32.ofNat (ofLe (field l i 4))

/-- Six bytes from `i` on. -/
def macAt (l : List UInt8) (i : ℕ) : Mac := fun j => l.getD (i + j) 0

/-- `htons(x)` as bytes. -/
def put16 (x : ℕ) : List UInt8 := (le 2 x).reverse

/-- `htonl(x)` as bytes. -/
def put32 (x : ℕ) : List UInt8 := (le 4 x).reverse

/-- An address as bytes. -/
def putAddr (a : UInt32) : List UInt8 := le 4 a.toNat

/-- A MAC address as bytes. -/
def putMac (m : Mac) : List UInt8 := List.ofFn m

/-- `bcast_mac`. -/
def bcastMac : Mac := fun _ => 0xFF

/-- `IPV4_BCAST`. -/
def ipv4Bcast : UInt32 := 0xFFFFFFFF

/-- `IPV4_NONE`. -/
def ipv4None : UInt32 := 0

/-! ### Checksums -/

/-- Bytes as the `uint16_t`s they are read as; a last odd byte is a word of its own. -/
def words16 : List UInt8 → List ℕ
  | a :: b :: l => (a.toNat + 256 * b.toNat) :: words16 l
  | [a] => [a.toNat]
  | [] => []

/-- `rfc1701_chksum`, which leaves out a last odd byte. -/
def rfc1701Chksum (l : List UInt8) : ℕ :=
  let total := u32 (words16 (l.take (l.length / 2 * 2))).sum
  65535 - (total % 65536 + total / 65536) % 65536

/-- `sum = (sum & 0xffff) + (sum >> 16)`. -/
def foldSum (sum : ℕ) : ℕ := sum % 65536 + sum / 65536

/-- `ones_sum16`; two folds leave no carry of a sum of 32 bits. -/
def onesSum16 (sum : ℕ) (l : List UInt8) : ℕ :=
  foldSum (foldSum ((words16 l).foldl
    (fun sum w => if 2 ^ 31 ≤ u32 (sum + w) then foldSum (u32 (sum + w)) else u32 (sum + w)) sum))

/-- `cksum_pheader`. -/
def cksumPheader (src dst : UInt32) (l : List UInt8) : ℕ :=
  65535 - onesSum16
    (onesSum16 0 (putAddr src ++ putAddr dst ++ [0, 6] ++ put16 l.length)) l

/-! ### The stack -/

/-- A `udp_listener`. -/
structure UdpListener (κ : Type) where
  port : ℕ
  callback : Option κ

/-- What `tcp_input` relies on in a socket: an established one has its receive window in its
buffer, and where acknowledgements are taken the send buffer holds what is outstanding. -/
structure Engaged (s : TcpSocket) : Prop where
  receiving : s.rx.state = .established → Tcp.Receiving s.rx
  outstanding : s.rx.state = .established ∨ s.rx.state = .closeWait →
    sub32 s.tx.txHighestSeq s.tx.txWinLow ≤ s.tx.txBufferOffset ∧
      s.tx.txBufferOffset ≤ s.tx.txBufferSize

/-- How far a socket has come. -/
inductive Phase where
  /-- `STATE_LISTEN`; `accepted` is whether `s->accepted` is taken. -/
  | listen (mss : ℕ) (accepted : Bool)
  /-- `STATE_SYN_RCVD`. -/
  | synRcvd (txWinLow : ℕ)
  /-- The states after the handshake, and `STATE_CLOSED`. -/
  | connected (s : TcpSocket) (engaged : Engaged s)

/-- A socket in `tcp_socket_list`. -/
structure TcpEntry where
  remoteIp : UInt32
  localIp : UInt32
  remotePort : ℕ
  localPort : ℕ
  phase : Phase

/-- The addresses of the machine and the tables that packets are looked up in. -/
structure Stack (κ : Type) where
  minipMac : Mac
  minipIp : UInt32
  minipBroadcast : UInt32
  arp : Cache
  udp : List (UdpListener κ)
  tcp : List TcpEntry

/-- What the code cannot know: the width of addresses and the debug level of the build, whether
`malloc` and the pool have room and what is in its memory, the sequence number a new socket
gets, and the MAC address that comes in within the 100 ms that `get_dest_mac` waits. -/
structure Env where
  w : ℕ
  w_ge : 32 ≤ w
  lvl : ℕ
  malloc : Bool
  pool : Bool
  mem : ℕ → UInt8
  rand : ℕ
  answer : UInt32 → Option Mac

/-- The outcome: the ARP cache, the packets handed to `minip_tx_handler` and the listeners that
were called, with the payload, the host and its port. -/
structure Outcome (κ : Type) where
  arp : Cache
  sent : List (List UInt8)
  called : List (κ × List UInt8 × UInt32 × ℕ)

/-- Nothing happens. -/
def Outcome.silent {κ : Type} (arp : Cache) : Outcome κ := ⟨arp, [], []⟩

variable {κ : Type}

/-! ### Sending -/

/-- `minip_build_mac_hdr`, with the destination that a lookup found. -/
def minipBuildMacHdr (st : Stack κ) (dst : Option Mac) (type : ℕ) : Except Crash (List UInt8) :=
  match dst with
  | none => .error .null
  | some dst => .ok (putMac dst ++ putMac st.minipMac ++ put16 type)

/-- `minip_build_ipv4_hdr`. -/
def minipBuildIpv4Hdr (st : Stack κ) (dst : UInt32) (proto len : ℕ) : List UInt8 :=
  let front := [0x45, 0] ++ put16 (20 + len) ++ [0, 0, 0x40, 0, 64, UInt8.ofNat proto]
  let back := putAddr st.minipIp ++ putAddr dst
  front ++ le 2 (rfc1701Chksum (front ++ [0, 0] ++ back)) ++ back

/-- `send_ping_reply`: `req` points to the ICMP header in the packet `p`, and `reqdatalen`
bytes of payload follow. -/
def sendPingReply (env : Env) (st : Stack κ) (ipaddr : UInt32) (p : Pktbuf)
    (req reqdatalen : ℕ) : Except Crash (Outcome κ) :=
  if env.pool = false then .ok (.silent st.arp)
  else do
    let q ← (Pktbuf.alloc env.mem).prepend 8
    let icmp := q.data
    let q ← q.prepend 20
    let ip := q.data
    let q ← q.prepend 14
    let eth := q.data
    -- pktbuf_append_data
    let tail := q.data + q.dlen
    let q ← q.append reqdatalen
    let payload ← p.read (req + 8) reqdatalen
    let (mac, arp) := arpCacheLookup st.arp ipaddr
    let macHdr ← minipBuildMacHdr st mac 0x0800
    let hdrData ← p.read (req + 4) 4
    let chksum := rfc1701Chksum ([0, 0, 0, 0] ++ hdrData ++ payload)
    let q := ((q.put tail payload).put eth macHdr).put ip
      (minipBuildIpv4Hdr st ipaddr 1 (8 + reqdatalen))
    let q := q.put icmp ([0, 0] ++ le 2 chksum ++ hdrData)
    return ⟨arp, [q.bytes], []⟩

/-- `send_arp_request`. -/
def sendArpRequest (env : Env) (st : Stack κ) (host : UInt32) : Except Crash (List (List UInt8)) :=
  if env.pool = false then .ok []
  else do
    let q ← (Pktbuf.alloc env.mem).prepend 14
    let eth := q.data
    let arp := q.data + q.dlen
    let q ← q.append 28
    let macHdr ← minipBuildMacHdr st (some bcastMac) 0x0806
    let q := (q.put eth macHdr).put arp
      (put16 1 ++ put16 0x0800 ++ [6, 4] ++ put16 1 ++ putMac st.minipMac ++ putAddr st.minipIp ++
        putMac bcastMac ++ putAddr host)
    return [q.bytes]

/-- `get_dest_mac`: the address, the ARP cache and what was sent to find it. -/
def getDestMac (env : Env) (st : Stack κ) (host : UInt32) :
    Except Crash (Option Mac × Cache × List (List UInt8)) :=
  if host = ipv4Bcast then .ok (some bcastMac, st.arp, [])
  else
    match arpCacheLookup st.arp host with
    | (some mac, arp) => .ok (some mac, arp, [])
    | (none, arp) => do
        let sent ← sendArpRequest env st host
        return (env.answer host, arp, sent)

/-- The destination that `minip_ipv4_send` finds. -/
def sendDestMac (env : Env) (st : Stack κ) (dest : UInt32) :
    Except Crash (Option Mac × Cache × List (List UInt8)) :=
  if dest = ipv4Bcast ∨ dest = st.minipBroadcast then .ok (some bcastMac, st.arp, [])
  else getDestMac env st dest

/-- `minip_ipv4_send` of the packet `p`. -/
def minipIpv4Send (env : Env) (st : Stack κ) (p : Pktbuf) (dest : UInt32) (proto : ℕ) :
    Except Crash (Cache × List (List UInt8)) := do
  let len := p.dlen
  let p ← p.prepend 20
  let ip := p.data
  let p ← p.prepend 14
  let eth := p.data
  let (mac, arp, sent) ← sendDestMac env st dest
  match mac with
  | none => return (arp, sent)
  | some mac =>
    let macHdr ← minipBuildMacHdr st (some mac) 0x0800
    let p := (p.put eth macHdr).put ip (minipBuildIpv4Hdr st dest proto len)
    return (arp, sent ++ [p.bytes])

/-- A segment without data: its ports, numbers and flags, and the MSS option if it has one. -/
structure Segment where
  destIp : UInt32
  destPort : ℕ
  srcIp : UInt32
  srcPort : ℕ
  flags : ℕ
  mssOption : Option ℕ
  ack : ℕ
  sequence : ℕ
  windowSize : ℕ

/-- The options of a segment. -/
def Segment.options (g : Segment) : List UInt8 :=
  match g.mssOption with
  | none => []
  | some mss => [2, 4] ++ put16 mss

/-- `tcp_send` without data. -/
def tcpSend (env : Env) (st : Stack κ) (g : Segment) : Except Crash (Cache × List (List UInt8)) :=
  if env.pool = false then .ok (st.arp, [])
  else do
    let p ← (Pktbuf.alloc env.mem).prepend (20 + g.options.length)
    let front := put16 g.srcPort ++ put16 g.destPort ++ put32 g.sequence ++ put32 g.ack ++
      put16 ((20 + g.options.length) / 4 * 4096 + g.flags) ++ put16 g.windowSize
    let chksum := cksumPheader g.srcIp g.destIp (front ++ [0, 0, 0, 0] ++ g.options)
    let p := p.put p.data (front ++ le 2 chksum ++ [0, 0] ++ g.options)
    minipIpv4Send env st p g.destIp 6

/-- Several segments, one after the other. -/
def tcpSendAll (env : Env) (st : Stack κ) : List Segment → Except Crash (Outcome κ)
  | [] => .ok (.silent st.arp)
  | g :: gs => do
      let (arp, sent) ← tcpSend env st g
      let out ← tcpSendAll env { st with arp := arp } gs
      return { out with sent := sent ++ out.sent }

/-! ### TCP -/

/-- `tcp_header_t`, its fields in host order. -/
structure TcpHeader where
  sourcePort : ℕ
  destPort : ℕ
  seqNum : ℕ
  ackNum : UInt32
  lengthFlags : ℕ
  winSize : UInt16

/-- The header in 20 bytes. -/
def tcpHeader (h : List UInt8) : TcpHeader :=
  ⟨be16 h 0, be16 h 2, be32 h 4, UInt32.ofNat (be32 h 8), be16 h 12, UInt16.ofNat (be16 h 14)⟩

namespace TcpHeader

variable (h : TcpHeader)

/-- `header_len`. -/
def headerLen : ℕ := h.lengthFlags / 4096 * 4

/-- `PKT_FIN`, `PKT_SYN`, `PKT_RST` and `PKT_ACK`. -/
def fin : Bool := h.lengthFlags.testBit 0
def syn : Bool := h.lengthFlags.testBit 1
def rst : Bool := h.lengthFlags.testBit 2
def ack : Bool := h.lengthFlags.testBit 4

/-- What `tcp_input` hands on of a packet whose header is consumed. -/
def packet (w : ℕ) (p : Pktbuf) : TcpPacket where
  seqNum := h.seqNum
  len := p.dlen
  data := fun i => p.buffer ((p.data + i) % 2 ^ w)
  fin := h.fin
  rst := h.rst
  ack := h.ack
  ackNum := h.ackNum
  winSize := h.winSize

end TcpHeader

/-- `lookup_socket`: a connection, else a listener. -/
def lookupSocket (l : List TcpEntry) (remoteIp localIp : UInt32) (remotePort localPort : ℕ) :
    Option TcpEntry :=
  (l.find? fun e =>
      (match e.phase with
        | .listen _ _ => false
        | .synRcvd _ => true
        | .connected s _ => s.rx.state ≠ .closed) &&
      decide (e.remoteIp = remoteIp ∧ e.localIp = localIp ∧ e.remotePort = remotePort ∧
        e.localPort = localPort)).or
    (l.find? fun e =>
      (match e.phase with
        | .listen _ _ => true
        | _ => false) && decide (e.localPort = localPort))

/-- The reset that `tcp_input` sends. -/
def resetSegments (h : TcpHeader) (src dst : UInt32) : List Segment :=
  if h.rst then []
  else [⟨src, h.sourcePort, dst, h.destPort, 4, none, 0, h.ackNum.toNat, 0⟩]

/-- The segment of `send_ack`, which has moved the right edge of the window. -/
def ackSegment (e : TcpEntry) (rx : Tcp.Socket) (tx : Tcp.Sender) : Segment :=
  ⟨e.remoteIp, e.remotePort, e.localIp, e.localPort, 16, none, rx.rxWinLow, tx.txWinLow,
    sub32 rx.rxWinHigh rx.rxWinLow % 65536⟩

/-- `copy_len` of `handle_data`. -/
def copyLen (w : ℕ) (s : Tcp.Socket) (len sequence : ℕ) : ℕ :=
  min (sub32 s.rxWinHigh s.rxWinLow) (subW w len (sub32 sequence s.rxWinLow))

/-- `handle_data` acknowledges at once. -/
def HandleDataAcks (w : ℕ) (s : Tcp.Socket) (len sequence : ℕ) : Prop :=
  Tcp.InOrder s sequence len →
    (2 ≤ if s.mss ≤ copyLen w s len sequence then s.rxFullMssCount + 1 else 0) ∨
      (s.rxWinSize / 2 : ℤ) <
        Tcp.int32 (sub32 (s.rxWinLow + copyLen w s len sequence + s.rxWinSize) s.rxWinHigh)

instance (w : ℕ) (s : Tcp.Socket) (len sequence : ℕ) : Decidable (HandleDataAcks w s len sequence) :=
  inferInstanceAs (Decidable (_ → _))

/-- The acknowledgements that `tcp_input` sends for a segment that takes a socket from `s`
to `s'`. -/
def tcpAcks (env : Env) (e : TcpEntry) (s s' : TcpSocket) (g : TcpPacket) : List Segment :=
  match s.rx.state with
  | .established =>
    let rx := (if 0 < g.len then Tcp.handleData env.w env.lvl s.rx g.data g.len g.seqNum
      else some s.rx).getD s.rx
    (if 0 < g.len ∧ HandleDataAcks env.w s.rx g.len g.seqNum then [ackSegment e rx s'.tx]
      else []) ++
      if s'.rx.state = .closeWait then [ackSegment e s'.rx s'.tx] else []
  | .closeWait | .finWait2 => if g.fin then [ackSegment e s'.rx s'.tx] else []
  -- in STATE_FIN_WAIT_1 itself, send_ack sends nothing
  | .finWait1 => if g.ack ∧ g.fin then [ackSegment e s'.rx s'.tx] else []
  | _ => []

/-- Where `cbuf_write` reads for `handle_data`: `data + offset`, as a position in the buffer. -/
def copyStart (w : ℕ) (s : Tcp.Socket) (p : Pktbuf) (sequence : ℕ) : ℕ :=
  (p.data + sub32 sequence s.rxWinLow) % 2 ^ w

/-- How many bytes it reads there. -/
def copyCount (w : ℕ) (s : Tcp.Socket) (len sequence : ℕ) : ℕ :=
  min (copyLen w s len sequence) (Cbuf.cbufSpaceAvail s.rxBuffer)

/-- `handle_data` is called and takes the segment for one in order. -/
def Taken (s : Tcp.Socket) (g : TcpPacket) : Prop :=
  s.state = .established ∧ 0 < g.len ∧ Tcp.InOrder s g.seqNum g.len

instance (s : Tcp.Socket) (g : TcpPacket) : Decidable (Taken s g) :=
  inferInstanceAs (Decidable (_ ∧ _))

/-- What `handle_data` reads of the packet. -/
def handleDataRead (w : ℕ) (s : Tcp.Socket) (p : Pktbuf) (g : TcpPacket) :
    Except Crash (List UInt8) :=
  if Taken s g ∧ copyCount w s g.len g.seqNum ≠ 0 then
    p.read (copyStart w s p g.seqNum) (copyCount w s g.len g.seqNum)
  else .ok []

/-- `tcp_input` for a socket after the handshake; `p` is the packet without its header. -/
def connectedInput (env : Env) (st : Stack κ) (e : TcpEntry) (s : TcpSocket) (h : TcpHeader)
    (p : Pktbuf) : Except Crash (Outcome κ) :=
  match s.tcpInput env.w env.lvl (h.packet env.w p) with
  | none => .error .assertion
  | some s' => do
      let _ ← handleDataRead env.w s.rx p (h.packet env.w p)
      tcpSendAll env st (tcpAcks env e s s' (h.packet env.w p))

/-- `tcp_input` for the socket that was found. -/
def socketInput (env : Env) (st : Stack κ) (e : TcpEntry) (h : TcpHeader) (src dst : UInt32)
    (p : Pktbuf) : Except Crash (Outcome κ) :=
  match e.phase with
  | .listen mss accepted =>
    if h.rst then .ok (.silent st.arp)
    else if h.syn = false then tcpSendAll env st (resetSegments h src dst)
    else if accepted ∨ env.malloc = false then .ok (.silent st.arp)
    else tcpSendAll env st
      [⟨src, h.sourcePort, st.minipIp, e.localPort, 18, some mss, u32 (h.seqNum + 1), env.rand,
        8191⟩]
  | .synRcvd txWinLow =>
    if h.rst then .ok (.silent st.arp)
    else if h.syn then tcpSendAll env st (resetSegments h src dst)
    else if h.ack ∧ h.ackNum.toNat = txWinLow then .ok (.silent st.arp)
    else tcpSendAll env st (resetSegments h src dst)
  | .connected s _ =>
    if h.rst then .ok (.silent st.arp)
    else if s.rx.state = .closed then tcpSendAll env st (resetSegments h src dst)
    else connectedInput env st e s h p

/-- The checksum that `tcp_input` computes, `0` where the driver has checked it. -/
def tcpChecksum (p : Pktbuf) (src dst : UInt32) : Except Crash ℕ :=
  if p.cksumTcpGood then .ok 0 else (cksumPheader src dst) <$> p.read p.data p.dlen

/-- `tcp_input`. -/
def tcpInput (env : Env) (st : Stack κ) (p : Pktbuf) (src dst : UInt32) :
    Except Crash (Outcome κ) :=
  if p.dlen < 20 then .ok (.silent st.arp)
  else do
    let h ← p.read p.data 20
    if p.dlen < (tcpHeader h).headerLen then .ok (.silent st.arp)
    else do
      let checksum ← tcpChecksum p src dst
      if checksum ≠ 0 then .ok (.silent st.arp)
      else
        match lookupSocket st.tcp src dst (tcpHeader h).sourcePort (tcpHeader h).destPort with
        | none => tcpSendAll env st (resetSegments (tcpHeader h) src dst)
        | some e =>
          socketInput env st e (tcpHeader h) src dst
            (((p.consume (tcpHeader h).headerLen).map Prod.snd).getD p)

/-! ### UDP -/

/-- `udp_input`. -/
def udpInput (st : Stack κ) (p : Pktbuf) (src : UInt32) : Except Crash (Outcome κ) :=
  match p.consume 8 with
  | none => .ok (.silent st.arp)
  | some (udp, p) => do
      let h ← p.read udp 8
      match st.udp.find? fun e => e.port = be16 h 2 with
      | none => .ok (.silent st.arp)
      | some e =>
        match e.callback with
        | none => .error .null
        | some cb => .ok ⟨st.arp, [], [(cb, p.bytes, src, be16 h 0)]⟩

/-! ### IPv4, ARP and the driver -/

/-- `handle_ipv4_packet` for a packet that is for us; `ip` points to its header `h`. -/
def dispatchIpv4 (env : Env) (st : Stack κ) (p : Pktbuf) (h : List UInt8) :
    Except Crash (Outcome κ) :=
  if h.getD 9 0 = 1 then
    match p.consume 8 with
    | none => .ok (.silent st.arp)
    | some (icmp, p) => do
        let t ← p.read icmp 8
        if t.getD 0 0 = 8 then sendPingReply env st (addr h 12) p icmp p.dlen
        else .ok (.silent st.arp)
  else if h.getD 9 0 = 17 then udpInput st p (addr h 12)
  else if h.getD 9 0 = 6 then tcpInput env st p (addr h 12) (addr h 16)
  else .ok (.silent st.arp)

/-- The packet is for this host. -/
def ForUs (st : Stack κ) (dst : UInt32) : Prop :=
  dst = ipv4Bcast ∨ st.minipIp = ipv4None ∨ dst = st.minipIp ∨ dst = st.minipBroadcast

instance (st : Stack κ) (dst : UInt32) : Decidable (ForUs st dst) :=
  inferInstanceAs (Decidable (_ ∨ _))

/-- `handle_ipv4_packet`. -/
def handleIpv4Packet (env : Env) (st : Stack κ) (p : Pktbuf) (srcMac : Mac) :
    Except Crash (Outcome κ) :=
  if p.dlen < 20 then .ok (.silent st.arp)
  else do
    let h ← p.read p.data 20
    if (h.getD 0 0).toNat / 16 ≠ 4 then .ok (.silent st.arp)
    else
      let headerLen := (h.getD 0 0).toNat % 16 * 4
      if p.dlen < headerLen then .ok (.silent st.arp)
      else do
        let hdr ← p.read p.data headerLen
        if rfc1701Chksum hdr ≠ 0 then .ok (.silent st.arp)
        else if p.dlen < be16 h 2 then .ok (.silent st.arp)
        else
          match (p.consumeTail (p.dlen - be16 h 2)).consume headerLen with
          | none => .ok (.silent st.arp)
          | some (_, p) =>
            let arp := arpCacheUpdate st.arp (addr h 12) srcMac env.malloc
            if ForUs st (addr h 16) then dispatchIpv4 env { st with arp := arp } p h
            else .ok (.silent arp)

/-- The Ethernet header, which `handle_arp_pkt` finds 14 bytes before the ARP packet. -/
def ethBefore (p : Pktbuf) (arp : ℕ) : Except Crash (List UInt8) :=
  if arp < 14 then .error .outside else p.read (arp - 14) 14

/-- `handle_arp_pkt`. -/
def handleArpPkt (env : Env) (st : Stack κ) (p : Pktbuf) : Except Crash (Outcome κ) :=
  match p.consume 28 with
  | none => .ok (.silent st.arp)
  | some (arp, p) => do
      let h ← p.read arp 28
      if be16 h 6 = 1 then
        if addr h 24 ≠ st.minipIp ∨ env.pool = false then .ok (.silent st.arp)
        else do
          let q ← (Pktbuf.alloc env.mem).prepend 14
          let reth := q.data
          let rarp := q.data + q.dlen
          let q ← q.append 28
          let eth ← ethBefore p arp
          let macHdr ← minipBuildMacHdr st (some (macAt eth 6)) 0x0806
          let q := (q.put reth macHdr).put rarp
            (put16 1 ++ put16 0x0800 ++ [6, 4] ++ put16 2 ++ putMac st.minipMac ++
              putAddr st.minipIp ++ putMac (macAt h 8) ++ putAddr (addr h 14))
          return ⟨st.arp, [q.bytes], []⟩
      else if be16 h 6 = 2 then
        .ok (.silent (arpCacheUpdate st.arp (addr h 14) (macAt h 8) env.malloc))
      else .ok (.silent st.arp)

/-- `minip_rx_driver_callback`. -/
def minipRxDriverCallback (env : Env) (st : Stack κ) (p : Pktbuf) : Except Crash (Outcome κ) :=
  match p.consume 14 with
  | none => .ok (.silent st.arp)
  | some (eth, p) => do
      let h ← p.read eth 14
      if field h 0 6 ≠ putMac st.minipMac ∧ field h 0 6 ≠ putMac bcastMac then
        .ok (.silent st.arp)
      else if be16 h 12 = 0x0800 then handleIpv4Packet env st p (macAt h 6)
      else if be16 h 12 = 0x0806 then handleArpPkt env st p
      else .ok (.silent st.arp)

/-! ### What is sent never fails -/

section Sending

variable {env : Env} {st : Stack κ}

theorem safe_sendArpRequest (host : UInt32) : Safe (sendArpRequest env st host) := by
  unfold sendArpRequest
  split_ifs
  · exact safe_ok _
  · obtain ⟨q, hq, hdata, hdlen, hblen⟩ :=
      Pktbuf.prepend_of_le (p := Pktbuf.alloc env.mem) (show 14 ≤ 64 by omega)
    refine (safe_bind_of_eq hq).2 (Safe.bind (Pktbuf.safe_append_iff.2 ?_) fun q' _ => ?_)
    · simp [hdata, hdlen, hblen]
    · exact (safe_bind_of_eq rfl).2 (safe_pure _)

theorem safe_getDestMac (host : UInt32) : Safe (getDestMac env st host) := by
  unfold getDestMac
  split_ifs
  · exact safe_ok _
  · split
    · exact safe_ok _
    · exact (safe_sendArpRequest host).bind fun _ _ => safe_pure _

theorem safe_sendDestMac (dest : UInt32) : Safe (sendDestMac env st dest) := by
  unfold sendDestMac
  split_ifs
  · exact safe_ok _
  · exact safe_getDestMac dest

/-- `minip_ipv4_send` has room for its headers. -/
theorem safe_minipIpv4Send {p : Pktbuf} (h : 34 ≤ p.data) (dest : UInt32) (proto : ℕ) :
    Safe (minipIpv4Send env st p dest proto) := by
  unfold minipIpv4Send
  obtain ⟨q, hq, hdata, -, -⟩ := Pktbuf.prepend_of_le (show 20 ≤ p.data by omega)
  obtain ⟨q', hq', -, -, -⟩ := Pktbuf.prepend_of_le (show 14 ≤ q.data by omega)
  refine (safe_bind_of_eq hq).2 ((safe_bind_of_eq hq').2
    ((safe_sendDestMac dest).bind fun r _ => ?_))
  · obtain ⟨mac, arp, sent⟩ := r
    cases mac with
    | none => exact safe_pure _
    | some mac => exact (safe_bind_of_eq rfl).2 (safe_pure _)

theorem Segment.length_options (g : Segment) : g.options.length ≤ 4 := by
  unfold options
  cases g.mssOption with
  | none => simp
  | some mss => simp [put16]

theorem safe_tcpSend (g : Segment) : Safe (tcpSend env st g) := by
  have hopt := g.length_options
  unfold tcpSend
  split_ifs
  · exact safe_ok _
  · obtain ⟨q, hq, hdata, -, -⟩ :=
      Pktbuf.prepend_of_le (p := Pktbuf.alloc env.mem)
        (show 20 + g.options.length ≤ 64 by omega)
    refine (safe_bind_of_eq hq).2 (safe_minipIpv4Send ?_ _ _)
    have hd : q.data = 64 - (20 + g.options.length) := hdata
    simp only [Pktbuf.put, hd]
    omega

theorem safe_tcpSendAll (gs : List Segment) : ∀ st : Stack κ, Safe (tcpSendAll env st gs) := by
  induction gs with
  | nil => exact fun st => safe_ok _
  | cons g gs ih =>
    intro st
    refine (safe_tcpSend g).bind fun r _ => ?_
    exact (ih { st with arp := r.1 }).bind fun _ _ => safe_pure _

end Sending

/-! ### Connections are engaged -/

variable {s : Tcp.Socket}

section Connections

variable {w lvl iss : ℕ}

/-- The receive window of an established connection is in its buffer. -/
def Live (s : Tcp.Socket) : Prop := s.state = .established → Tcp.Receiving s

theorem tcpRemoteClose_state (s : Tcp.Socket) : (Tcp.tcpRemoteClose s).state = .closed := by
  unfold Tcp.tcpRemoteClose
  split_ifs with hclosed
  · exact hclosed
  · rfl

theorem finWait2Input_state (g : Tcp.Packet) (hst : s.state ≠ .established) :
    (Tcp.finWait2Input s g).state ≠ .established := by
  unfold Tcp.finWait2Input
  split_ifs
  · simp
  · exact hst

/-- A connection that is established was so before the packet. -/
theorem established_of_tcpInput {s s' : Tcp.Socket} {g : Tcp.Packet}
    (h : Tcp.tcpInput w lvl s g = some s') (hst' : s'.state = .established) :
    s.state = .established ∧ Tcp.establishedInput w lvl s g = some s' := by
  unfold Tcp.tcpInput at h
  by_cases hrst : g.rst = true
  · rw [if_pos hrst, Option.some.injEq] at h
    rw [← h, tcpRemoteClose_state] at hst'
    cases hst'
  rw [if_neg hrst] at h
  cases hst : s.state <;> rw [hst] at h <;> dsimp only at h
  case established => exact ⟨rfl, h⟩
  all_goals
    exfalso
  case finWait1 =>
    split_ifs at h
    · rw [← Option.some.inj h] at hst'
      exact finWait2Input_state g (by simp) hst'
    · rw [← Option.some.inj h] at hst'
      cases hst'
    · rw [← Option.some.inj h, hst] at hst'
      cases hst'
  case finWait2 =>
    rw [← Option.some.inj h] at hst'
    exact finWait2Input_state g (by simp [hst]) hst'
  case lastAck =>
    rw [← Option.some.inj h] at hst'
    split_ifs at hst'
    · rw [tcpRemoteClose_state] at hst'
      cases hst'
    · rw [hst] at hst'
      cases hst'
  case closeWait | closing =>
    rw [← Option.some.inj h] at hst'
    split_ifs at hst' <;> simp [hst] at hst'
  all_goals
    rw [← Option.some.inj h, hst] at hst'
    cases hst'

theorem Live.tcpInput {s s' : Tcp.Socket} {g : Tcp.Packet} (hs : Live s)
    (h : Tcp.tcpInput w lvl s g = some s') : Live s' := by
  intro hst'
  obtain ⟨hst, h⟩ := established_of_tcpInput h hst'
  obtain ⟨r, hr, rfl⟩ := Option.map_eq_some_iff.1 h
  have hrec : Tcp.Receiving r := by
    split_ifs at hr with hlen
    · by_cases hin : Tcp.InOrder s g.seqNum g.len
      · by_cases hassert : DebugAssert lvl (sub32 g.seqNum s.rxWinLow < g.len)
        · obtain ⟨r', hr', hrec, -⟩ :=
            Tcp.handleData_inOrder w lvl (hs hst) g.data hlen hin hassert rfl
          rwa [← Option.some.inj (hr'.symm.trans hr)]
        · rw [Tcp.handleData, if_pos (.of hlen), if_pos hin] at hr
          dsimp only at hr
          rw [if_neg hassert] at hr
          cases hr
      · rw [Tcp.handleData_dropped g.data hlen hin] at hr
        rw [← Option.some.inj hr]
        exact (hs hst).sendAck
    · rw [← Option.some.inj hr]
      exact hs hst
  dsimp only at hst' ⊢
  split_ifs at hst' ⊢
  exact hrec

theorem tcpRead_state {len : ℕ} {r : Tcp.Socket × Tcp.Answer}
    (h : Tcp.tcpRead lvl s len = some r) : r.1.state = s.state := by
  unfold Tcp.tcpRead at h
  split_ifs at h
  · rw [← Option.some.inj h]
  · rw [← Option.some.inj h]
  · obtain ⟨q, -, rfl⟩ := Option.map_eq_some_iff.1 h
    dsimp only
    split_ifs <;> simp

theorem Live.tcpRead (hs : Live s) {len : ℕ} {r : Tcp.Socket × Tcp.Answer}
    (h : Tcp.tcpRead lvl s len = some r) : Live r.1 := by
  intro hst'
  have hrec := hs ((tcpRead_state h).symm.trans hst')
  obtain ⟨s', a, hr, -, hspec, -⟩ := Tcp.tcpRead_spec hrec.toBuffered lvl len
  rw [← Option.some.inj (hr.symm.trans h)]
  exact (hspec hrec).1

theorem Live.tcpSocketSend_iterate (hs : Live s) (n : ℕ) :
    Live (Tcp.tcpSocketSend^[n] s) := by
  induction n generalizing s with
  | zero => exact hs
  | succ n ih =>
    rw [Function.iterate_succ_apply]
    refine ih fun hst => ?_
    rw [Tcp.tcpSocketSend_eq] at hst
    exact (hs hst).tcpSocketSend

/-- **One step** of a connection. -/
theorem Live.step {c c' : Tcp.Link} {e : Tcp.Event} (hs : Live c.socket.rx) (hc : c.Inv iss)
    (hstep : c.step w lvl iss e = some c') : Live c'.socket.rx := by
  cases e with
  | segment p =>
    obtain ⟨s, h, rfl⟩ := Option.map_eq_some_iff.1 hstep
    obtain ⟨tx, -, h⟩ := Option.bind_eq_some_iff.1 h
    obtain ⟨rx, hrx, rfl⟩ := Option.map_eq_some_iff.1 h
    exact hs.tcpInput hrx
  | read len =>
    obtain ⟨r, hr, rfl⟩ := Option.map_eq_some_iff.1 hstep
    exact hs.tcpRead hr
  | write rest =>
    obtain ⟨r, hr, rfl⟩ := Option.map_eq_some_iff.1 hstep
    obtain ⟨r', hr', hout, -⟩ := hc.sends.tcpWrite hc.mss lvl rest
    obtain rfl : r' = r := Option.some.inj (hr'.symm.trans hr)
    obtain ⟨n, hn⟩ := hout.rx
    exact hn ▸ hs.tcpSocketSend_iterate n
  | retransmitTimeout =>
    cases hstep
    obtain ⟨n, hn⟩ := hc.sends.tcpRetransmit.rx
    exact hn ▸ hs.tcpSocketSend_iterate n
  | ackTimeout =>
    cases hstep
    intro hst
    rw [Tcp.sendAck_state] at hst
    exact (hs hst).sendAck

/-- **The sockets that `tcp_input` finds are as it relies on**, in every state of every run of a
connection that its owner has not closed. -/
theorem link_engaged (w lvl irs iss : ℕ) (win : UInt16) (rxRaw txRaw : ℕ → UInt8)
    (events : List Tcp.Event) :
    Machine.Throughout (Tcp.Link.step w lvl iss) (fun c => Engaged c.socket)
      (Tcp.Link.start irs iss win rxRaw txRaw) events := by
  have hstart : Live (Tcp.Link.start irs iss win rxRaw txRaw).socket.rx := fun _ =>
    ((Tcp.inv_start [] irs rxRaw).receiving rfl).1
  have hstep (c : Tcp.Link) (e : Tcp.Event) (c' : Tcp.Link)
      (hc : c.Inv iss ∧ Live c.socket.rx) (h : c.step w lvl iss e = some c') :
      c'.Inv iss ∧ Live c'.socket.rx := ⟨hc.1.step h, hc.2.step hc.1 h⟩
  refine (Machine.throughout_inv hstep events _
    ⟨Tcp.Link.inv_start irs iss win rxRaw txRaw, hstart⟩).imp fun c hc => ⟨hc.2, fun _ => ?_⟩
  have htx := hc.1.transmitIntact lvl
  exact ⟨htx.outstanding_le, htx.offset_le⟩

end Connections

/-! ### What the handlers meet -/

section Handlers

variable {env : Env} {st : Stack κ}

theorem arpCacheLookup_fst (l : Cache) (a : UInt32) :
    (arpCacheLookup l a).1.isSome ↔ (entryOf l a).isSome := by
  unfold arpCacheLookup
  cases entryOf l a <;> simp

/-- **The echo reply** needs room for the payload behind its headers and a MAC address. -/
theorem safe_sendPingReply_iff {p : Pktbuf} {req n : ℕ} (h : req + 8 + n ≤ p.blen)
    (ipaddr : UInt32) :
    Safe (sendPingReply env st ipaddr p req n) ↔
      (env.pool = true → n ≤ 1472 ∧ (entryOf st.arp ipaddr).isSome) := by
  unfold sendPingReply
  by_cases hpool : env.pool = false
  · rw [if_pos hpool]
    exact iff_of_true (safe_ok _) (by simp [hpool])
  rw [if_neg hpool]
  obtain ⟨q₁, h₁, hd₁, hl₁, hb₁⟩ :=
    Pktbuf.prepend_of_le (p := Pktbuf.alloc env.mem) (show 8 ≤ 64 by omega)
  simp only [Pktbuf.alloc_data, Pktbuf.alloc_dlen, Pktbuf.alloc_blen] at hd₁ hl₁ hb₁
  obtain ⟨q₂, h₂, hd₂, hl₂, hb₂⟩ := Pktbuf.prepend_of_le (show 20 ≤ q₁.data by omega)
  obtain ⟨q₃, h₃, hd₃, hl₃, hb₃⟩ := Pktbuf.prepend_of_le (show 14 ≤ q₂.data by omega)
  have happend : Safe (q₃.append n) ↔ n ≤ 1472 := by
    rw [Pktbuf.safe_append_iff]
    omega
  rw [safe_bind_of_eq h₁, safe_bind_of_eq h₂, safe_bind_of_eq h₃]
  rw [Bool.not_eq_false] at hpool
  simp only [hpool, forall_const]
  by_cases hn : n ≤ 1472
  · obtain ⟨q₄, h₄⟩ := happend.2 hn
    rw [safe_bind_of_eq h₄, safe_bind_of_eq (Pktbuf.read_of_le h)]
    have hfst := arpCacheLookup_fst st.arp ipaddr
    cases hl : arpCacheLookup st.arp ipaddr with
    | mk mac arp =>
      rw [hl] at hfst
      cases mac with
      | none =>
        refine iff_of_false (not_safe_bind (not_safe_error _)) fun hh => ?_
        simpa using hfst.2 hh.2
      | some mac =>
        refine iff_of_true ?_ ⟨hn, hfst.1 rfl⟩
        refine (safe_bind_of_eq rfl).2 ((safe_bind_of_eq (Pktbuf.read_of_le ?_)).2 (safe_pure _))
        omega
  · exact iff_of_false (not_safe_bind (mt happend.1 hn)) fun hh => hn hh.1

/-- **`udp_input`** calls the listener of the port. -/
theorem safe_udpInput_iff (p : Pktbuf) (src : UInt32) :
    Safe (udpInput st p src) ↔ (8 ≤ p.dlen → ∀ e,
      st.udp.find? (fun e => e.port = be16 (window p.buffer p.data 8) 2) = some e →
        e.callback.isSome) := by
  unfold udpInput
  by_cases h : 8 ≤ p.dlen
  · rw [Pktbuf.consume_of_le h]
    dsimp only
    have hread : (p.advance 8 h).read p.data 8 = .ok (window p.buffer p.data 8) := by
      refine Pktbuf.read_of_le ?_
      have := p.fits
      simp only [Pktbuf.advance_blen]
      omega
    rw [safe_bind_of_eq hread]
    cases hf : st.udp.find? fun e => e.port = be16 (window p.buffer p.data 8) 2 with
    | none => exact iff_of_true (safe_ok _) fun _ e he => by cases he
    | some e =>
      dsimp only
      cases hc : e.callback with
      | none =>
        refine iff_of_false (not_safe_error _) fun hh => ?_
        simpa [hc] using hh h e rfl
      | some cb =>
        refine iff_of_true (safe_ok _) fun _ e' he => ?_
        cases he
        simp [hc]
  · rw [Pktbuf.consume_of_lt (by omega)]
    exact iff_of_true (safe_ok _) fun h' => absurd h' h

end Handlers

/-! ### What a TCP segment meets -/

section TcpSegments

variable {env : Env} {st : Stack κ} {p : Pktbuf}

/-- How far before the window a segment starts. -/
def behind (s : Tcp.Socket) (g : TcpPacket) : ℕ := sub32 s.rxWinLow g.seqNum

/-- A segment that `handle_data` takes starts at the low edge of the window.  Or it does not, and
`offset` is the distance below `2 ^ 32`: no assertion is compiled in that tells, or the packet is
longer than that, and the window is closed or what lies at that offset is in the buffer. -/
def AtWindow (env : Env) (s : Tcp.Socket) (p : Pktbuf) (g : TcpPacket) : Prop :=
  behind s g = 0 ∨
    DebugAssert env.lvl (2 ^ 32 - behind s g < g.len) ∧
      (s.rxWinHigh = s.rxWinLow ∨
        (p.data + (2 ^ 32 - behind s g)) % 2 ^ env.w +
          min (sub32 s.rxWinHigh s.rxWinLow) (subW env.w g.len (2 ^ 32 - behind s g)) ≤ p.blen)

theorem behind_lt (s : Tcp.Socket) (g : TcpPacket) : behind s g < 2 ^ 32 := sub32_lt _ _

/-- `offset` of `handle_data`, which has the wrong sign. -/
theorem offset_eq (s : Tcp.Socket) (g : TcpPacket) :
    sub32 g.seqNum s.rxWinLow = if behind s g = 0 then 0 else 2 ^ 32 - behind s g := by
  by_cases h : behind s g = 0
  · rw [if_pos h]
    simp only [behind, sub32, u32] at h ⊢
    omega
  · rw [if_neg h]
    simp only [behind, sub32, u32] at h ⊢
    omega

/-- No assertion of `handle_ack` fails while the buffer holds what is outstanding. -/
theorem handleAck_isSome (lvl : ℕ) {tx : Tcp.Sender}
    (h : sub32 tx.txHighestSeq tx.txWinLow ≤ tx.txBufferOffset ∧
      tx.txBufferOffset ≤ tx.txBufferSize) (sequence winSize : ℕ) :
    (Tcp.handleAck lvl tx sequence winSize).isSome := by
  have hlte := Tcp.sequenceLte_iff sequence tx.txWinLow
  have hgt := Tcp.sequenceGt_iff sequence tx.txHighestSeq
  unfold Tcp.handleAck
  by_cases hold : Tcp.SequenceLte sequence tx.txWinLow
  · rw [if_pos hold, Option.isSome_some]
  rw [if_neg hold]
  by_cases hnew : Tcp.SequenceGt sequence tx.txHighestSeq
  · rw [if_pos hnew, Option.isSome_some]
  have hin : sub32 sequence tx.txWinLow ≤ sub32 tx.txHighestSeq tx.txWinLow := by
    have hold' := mt hlte.2 hold
    have hnew' := mt hgt.2 hnew
    simp only [sub32, u32] at hold' hnew' ⊢
    omega
  rw [if_neg hnew, if_pos ⟨.of (by omega), .of (by omega)⟩, Option.isSome_some]

variable {g : TcpPacket}

/-- **The engine** stops at one assertion only, that of `handle_data`. -/
theorem tcpInput_isSome_iff (w lvl : ℕ) {s : TcpSocket} (hs : Engaged s) (hrst : g.rst = false) :
    (s.tcpInput w lvl g).isSome ↔
      (Taken s.rx g → DebugAssert lvl (sub32 g.seqNum s.rx.rxWinLow < g.len)) := by
  have hack : ((if s.Acks g then Tcp.handleAck lvl s.tx g.ackNum.toNat g.winSize.toNat
      else some s.tx)).isSome := by
    split_ifs with hacks
    · exact handleAck_isSome lvl (hs.outstanding hacks.2.2) _ _
    · rfl
  obtain ⟨tx, htx⟩ := Option.isSome_iff_exists.1 hack
  rw [TcpSocket.tcpInput, htx, Option.bind_some, Option.isSome_map, Tcp.tcpInput,
    if_neg (by simp [hrst])]
  by_cases htaken : Taken s.rx g
  · obtain ⟨hst, hlen, hin⟩ := htaken
    simp only [hst, Tcp.establishedInput, if_pos hlen, Option.isSome_map]
    by_cases hassert : DebugAssert lvl (sub32 g.seqNum s.rx.rxWinLow < g.len)
    · obtain ⟨s', hs', -⟩ :=
        Tcp.handleData_inOrder w lvl (hs.receiving hst) g.data hlen hin hassert rfl
      rw [hs']
      exact iff_of_true rfl fun _ => hassert
    · rw [Tcp.handleData, if_pos (.of hlen), if_pos hin]
      dsimp only
      rw [if_neg hassert]
      exact iff_of_false (by simp) fun h => hassert (h ⟨hst, hlen, hin⟩)
  · refine iff_of_true ?_ fun h => absurd h htaken
    cases hst : s.rx.state with
    | established =>
      simp only [Tcp.establishedInput, Option.isSome_map]
      split_ifs with hlen
      · rw [Tcp.handleData_dropped g.data hlen fun hin => htaken ⟨hst, hlen, hin⟩]
        rfl
      · rfl
    | finWait1 =>
      dsimp only
      split_ifs <;> rfl
    | _ => rfl

/-- All of a read fits in the receive buffer. -/
theorem copyCount_eq (h : Tcp.Receiving s) (w len sequence : ℕ) :
    copyCount w s len sequence = copyLen w s len sequence := by
  have hfits := h.fits
  rw [copyCount, h.avail, copyLen]
  omega

/-- **What `handle_data` reads** lies in the packet for a segment at the low edge. -/
theorem safe_handleDataRead_iff (w : ℕ) :
    Safe (handleDataRead w s p g) ↔ (Taken s g → copyCount w s g.len g.seqNum = 0 ∨
      copyStart w s p g.seqNum + copyCount w s g.len g.seqNum ≤ p.blen) := by
  unfold handleDataRead
  split_ifs with h
  · rw [Pktbuf.safe_read_iff]
    exact ⟨fun hr _ => .inr hr, fun hr => (hr h.1).resolve_left h.2⟩
  · exact iff_of_true (safe_ok _) fun htaken => .inl (by_contra fun hne => h ⟨htaken, hne⟩)

/-- The low edge of the window is in the packet, and what lies before it has an offset that the
packet does not reach. -/
theorem atWindow_iff (hs : Tcp.Receiving s) (hlen : 0 < g.len) (hg : g.len = p.dlen) :
    (DebugAssert env.lvl (sub32 g.seqNum s.rxWinLow < g.len) ∧ (copyLen env.w s g.len g.seqNum = 0 ∨
        copyStart env.w s p g.seqNum + copyLen env.w s g.len g.seqNum ≤ p.blen)) ↔
    AtWindow env s p g := by
  have hfits := p.fits
  have hblen := p.blen_lt
  have hw : 2 ^ 32 ≤ 2 ^ env.w := Nat.pow_le_pow_right (by omega) env.w_ge
  have hlow := hs.low_lt
  have hhigh := hs.high_lt
  have hbehind := behind_lt s g
  have hclosed : sub32 s.rxWinHigh s.rxWinLow = 0 ↔ s.rxWinHigh = s.rxWinLow := by
    simp only [sub32, u32]
    omega
  simp only [copyStart, copyLen, offset_eq, AtWindow]
  by_cases hd : behind s g = 0
  · simp only [hd, if_true]
    refine iff_of_true ⟨.of hlen, .inr ?_⟩ (.inl trivial)
    rw [Nat.add_zero, Nat.mod_eq_of_lt (show p.data < 2 ^ env.w by omega),
      subW_of_le (show g.len < 2 ^ env.w by omega) (Nat.zero_le _)]
    omega
  · simp only [hd, if_false, false_or]
    refine and_congr_right fun _ => ?_
    generalize hm : 2 ^ 32 - behind s g = m
    have hm' : m < 2 ^ env.w := by omega
    rw [Nat.min_eq_zero_iff, hclosed]
    constructor
    · rintro ((hwin | hnone) | hin)
      · exact .inl hwin
      · -- the distance to the window is the length of the packet
        obtain rfl : m = g.len := by
          rw [subW, Nat.mod_eq_of_lt hm'] at hnone
          obtain ⟨k, hk⟩ := Nat.dvd_of_mod_eq_zero hnone
          have hk1 : k = 1 := by
            rcases k with _ | _ | k
            · omega
            · rfl
            · have : 2 ^ env.w * 2 ≤ 2 ^ env.w * (k + 1 + 1) := Nat.mul_le_mul_left _ (by omega)
              omega
          subst hk1
          omega
        refine .inr ?_
        rw [hnone, Nat.mod_eq_of_lt (show p.data + g.len < 2 ^ env.w by omega)]
        omega
      · exact .inr hin
    · rintro (hwin | hin)
      · exact .inl (.inl hwin)
      · exact .inr hin

/-- **A segment for a connection.** -/
theorem safe_connectedInput_iff {e : TcpEntry} {s : TcpSocket} (hs : Engaged s) {h : TcpHeader}
    (hrst : h.rst = false) :
    Safe (connectedInput env st e s h p) ↔
      (Taken s.rx (h.packet env.w p) → AtWindow env s.rx p (h.packet env.w p)) := by
  have hengine := tcpInput_isSome_iff env.w env.lvl hs (g := h.packet env.w p) hrst
  have hsafe : Safe (connectedInput env st e s h p) ↔
      (s.tcpInput env.w env.lvl (h.packet env.w p)).isSome ∧
        Safe (handleDataRead env.w s.rx p (h.packet env.w p)) := by
    unfold connectedInput
    cases s.tcpInput env.w env.lvl (h.packet env.w p) with
    | none => exact iff_of_false (not_safe_error _) (by simp)
    | some s' =>
      by_cases hread : Safe (handleDataRead env.w s.rx p (h.packet env.w p))
      · exact iff_of_true (hread.bind fun _ _ => safe_tcpSendAll _ _) ⟨rfl, hread⟩
      · exact iff_of_false (not_safe_bind hread) fun h => hread h.2
  rw [hsafe, hengine, safe_handleDataRead_iff, ← imp_and]
  refine imp_congr_right fun htaken => ?_
  rw [copyCount_eq (hs.receiving htaken.1)]
  exact atWindow_iff (hs.receiving htaken.1) htaken.2.1 rfl

/-- The connection that a segment reaches, with the segment and the packet that is left. -/
def segmentFor (env : Env) (st : Stack κ) (p : Pktbuf) (src dst : UInt32) :
    Option (TcpSocket × TcpPacket × Pktbuf) :=
  let h := tcpHeader (window p.buffer p.data 20)
  if p.dlen < 20 ∨ p.dlen < h.headerLen ∨
      (p.cksumTcpGood = false ∧ cksumPheader src dst p.bytes ≠ 0) ∨ h.rst then none
  else
    match (lookupSocket st.tcp src dst h.sourcePort h.destPort).map TcpEntry.phase with
    | some (.connected s _) =>
      let q := ((p.consume h.headerLen).map Prod.snd).getD p
      if s.rx.state = .closed then none else some (s, h.packet env.w q, q)
    | _ => none

theorem tcpChecksum_eq (p : Pktbuf) (src dst : UInt32) :
    tcpChecksum p src dst =
      .ok (if p.cksumTcpGood then 0 else cksumPheader src dst p.bytes) := by
  rw [tcpChecksum, Pktbuf.read_data le_rfl]
  split_ifs <;> rfl

/-- Whatever has not got to a connection is harmless. -/
theorem safe_socketInput_iff {e : TcpEntry} {h : TcpHeader} {src dst : UInt32} :
    Safe (socketInput env st e h src dst p) ↔ ∀ s hs, e.phase = .connected s hs →
      h.rst = false → s.rx.state ≠ .closed → Taken s.rx (h.packet env.w p) →
        AtWindow env s.rx p (h.packet env.w p) := by
  unfold socketInput
  cases hphase : e.phase with
  | listen mss accepted =>
    refine iff_of_true ?_ (fun s hs heq => by cases heq)
    dsimp only
    split_ifs
    · exact safe_ok _
    · exact safe_tcpSendAll _ _
    · exact safe_ok _
    · exact safe_tcpSendAll _ _
  | synRcvd txWinLow =>
    refine iff_of_true ?_ (fun s hs heq => by cases heq)
    dsimp only
    split_ifs
    · exact safe_ok _
    · exact safe_tcpSendAll _ _
    · exact safe_ok _
    · exact safe_tcpSendAll _ _
  | connected s hs =>
    dsimp only
    split_ifs with hrst hclosed
    · exact iff_of_true (safe_ok _) fun s' hs' heq hrst' => by simp [hrst] at hrst'
    · refine iff_of_true (safe_tcpSendAll _ _) fun s' hs' heq _ hne => ?_
      cases heq
      exact absurd hclosed hne
    · rw [safe_connectedInput_iff hs (by simpa using hrst)]
      constructor
      · intro hh s' hs' heq _ _
        cases heq
        exact hh
      · exact fun hh => hh s hs rfl (by simpa using hrst) hclosed

/-- **`tcp_input`**: the header is checked before it is used, and all that is left is the data of
a segment that a connection takes. -/
theorem safe_tcpInput_iff (src dst : UInt32) :
    Safe (tcpInput env st p src dst) ↔ ∀ s g q, segmentFor env st p src dst = some (s, g, q) →
      Taken s.rx g → AtWindow env s.rx q g := by
  unfold tcpInput segmentFor
  by_cases hshort : p.dlen < 20
  · simp [hshort]
  rw [if_neg hshort, safe_bind_of_eq (Pktbuf.read_data (by omega))]
  dsimp only
  generalize tcpHeader (window p.buffer p.data 20) = h
  by_cases hlen : p.dlen < h.headerLen
  · simp [hlen]
  rw [if_neg hlen, safe_bind_of_eq (tcpChecksum_eq p src dst)]
  by_cases hsum : p.cksumTcpGood = false ∧ cksumPheader src dst p.bytes ≠ 0
  · rw [if_pos (by simpa using hsum)]
    simp [hsum]
  rw [if_neg (by simpa using hsum)]
  cases hfind : lookupSocket st.tcp src dst h.sourcePort h.destPort with
  | none => exact iff_of_true (safe_tcpSendAll _ _) (by simp)
  | some e =>
    dsimp only
    rw [safe_socketInput_iff]
    by_cases hrst : h.rst
    · simp [hrst]
    rw [if_neg (by simp only [hshort, hlen, hsum, hrst, false_or, reduceCtorEq]; exact id)]
    cases hphase : e.phase with
    | listen mss accepted => simp [hphase]
    | synRcvd txWinLow => simp [hphase]
    | connected s hs =>
      simp only [Option.map_some, hphase]
      constructor
      · intro hh s' g q heq htaken
        split_ifs at heq with hclosed
        cases heq
        exact hh _ hs rfl (by simpa using hrst) hclosed htaken
      · intro hh s' hs' heq _ hne
        cases heq
        exact hh _ _ _ (if_neg hne)

end TcpSegments

/-! ### What a packet meets -/

section Driver

variable {env : Env} {st : Stack κ} {p : Pktbuf}

/-- What the packet `q` for this host, behind the IPv4 header `h`, must meet. -/
structure Harmless (env : Env) (st : Stack κ) (q : Pktbuf) (h : List UInt8) : Prop where
  /-- The payload of an echo request has room in the reply, and its sender is in the ARP cache or
  can be put there. -/
  echo : h.getD 9 0 = 1 → 8 ≤ q.dlen → q.buffer q.data = 8 → env.pool →
    q.dlen - 8 ≤ 1472 ∧
      ((entryOf st.arp (addr h 12)).isSome ∨ ¬ Refused (addr h 12) ∧ env.malloc)
  /-- The listener for a datagram is not `NULL`. -/
  datagram : h.getD 9 0 = 17 → 8 ≤ q.dlen → ∀ e,
    st.udp.find? (fun e => e.port = be16 (window q.buffer q.data 8) 2) = some e →
      e.callback.isSome
  /-- The data that a connection takes starts at its window. -/
  segment : h.getD 9 0 = 6 → ∀ s g q', segmentFor env st q (addr h 12) (addr h 16) = some (s, g, q') →
    Taken s.rx g → AtWindow env s.rx q' g

theorem safe_dispatchIpv4_iff {h : List UInt8} (mac : Mac) :
    Safe (dispatchIpv4 env { st with arp := arpCacheUpdate st.arp (addr h 12) mac env.malloc } p h)
      ↔ Harmless env st p h := by
  unfold dispatchIpv4
  split_ifs with hicmp hudp htcp
  · have hother (x : UInt8) (hx : (1 : UInt8) ≠ x) : h.getD 9 0 ≠ x := hicmp ▸ hx
    have hecho : Harmless env st p h ↔ (8 ≤ p.dlen → p.buffer p.data = 8 → env.pool →
        p.dlen - 8 ≤ 1472 ∧
          ((entryOf st.arp (addr h 12)).isSome ∨ ¬ Refused (addr h 12) ∧ env.malloc)) :=
      ⟨fun hh => hh.echo hicmp, fun hh => ⟨fun _ => hh,
        fun h17 => absurd h17 (hother 17 (by decide)), fun h6 => absurd h6 (hother 6 (by decide))⟩⟩
    rw [hecho]
    by_cases hlen : 8 ≤ p.dlen
    · have hfits := p.fits
      have hread : (p.advance 8 hlen).read p.data 8 = .ok (window p.buffer p.data 8) :=
        Pktbuf.read_of_le (by simp only [Pktbuf.advance_blen]; omega)
      have htype : (window p.buffer p.data 8).getD 0 0 = p.buffer p.data := by
        simp [window]
      rw [Pktbuf.consume_of_le hlen]
      dsimp only
      rw [safe_bind_of_eq hread, htype]
      split_ifs with hreq
      · rw [safe_sendPingReply_iff (by simp only [Pktbuf.advance_blen, Pktbuf.advance_dlen]; omega),
          entryOf_arpCacheUpdate_isSome]
        simp [hlen, hreq]
      · exact iff_of_true (safe_ok _) fun _ h8 => absurd h8 hreq
    · rw [Pktbuf.consume_of_lt (by omega)]
      exact iff_of_true (safe_ok _) fun h8 => absurd h8 hlen
  · rw [safe_udpInput_iff]
    constructor
    · exact fun hh => ⟨fun h1 => absurd h1 hicmp, fun _ => hh, fun h6 =>
        absurd (hudp.symm.trans h6) (by decide)⟩
    · exact fun hh => hh.datagram hudp
  · rw [safe_tcpInput_iff]
    constructor
    · exact fun hh => ⟨fun h1 => absurd h1 hicmp, fun h17 => absurd h17 hudp, fun _ => hh⟩
    · exact fun hh => hh.segment htcp
  · exact iff_of_true (safe_ok _)
      ⟨fun h1 => absurd h1 hicmp, fun h17 => absurd h17 hudp, fun h6 => absurd h6 htcp⟩

/-- The IPv4 header of a packet that is good and for this host, and the packet behind it. -/
def ipv4For (st : Stack κ) (p : Pktbuf) : Option (List UInt8 × Pktbuf) :=
  let h := window p.buffer p.data 20
  let headerLen := (h.getD 0 0).toNat % 16 * 4
  if p.dlen < 20 ∨ (h.getD 0 0).toNat / 16 ≠ 4 ∨ p.dlen < headerLen ∨
      rfc1701Chksum (window p.buffer p.data headerLen) ≠ 0 ∨ p.dlen < be16 h 2 ∨
        ¬ ForUs st (addr h 16) then none
  else ((p.consumeTail (p.dlen - be16 h 2)).consume headerLen).map fun r => (h, r.2)

theorem safe_handleIpv4Packet_iff (mac : Mac) :
    Safe (handleIpv4Packet env st p mac) ↔
      ∀ h q, ipv4For st p = some (h, q) → Harmless env st q h := by
  unfold handleIpv4Packet ipv4For
  by_cases hshort : p.dlen < 20
  · simp [hshort]
  rw [if_neg hshort, safe_bind_of_eq (Pktbuf.read_data (by omega))]
  dsimp only
  generalize window p.buffer p.data 20 = h
  by_cases hver : (h.getD 0 0).toNat / 16 ≠ 4
  · rw [if_pos hver, if_pos (.inr (.inl hver))]
    simp
  rw [if_neg hver]
  generalize (h.getD 0 0).toNat % 16 * 4 = headerLen
  by_cases hlen : p.dlen < headerLen
  · simp [hlen]
  rw [if_neg hlen, safe_bind_of_eq (Pktbuf.read_data (by omega))]
  by_cases hsum : rfc1701Chksum (window p.buffer p.data headerLen) ≠ 0
  · rw [if_pos hsum]
    simp [hsum]
  rw [if_neg hsum]
  by_cases htotal : p.dlen < be16 h 2
  · simp [htotal]
  rw [if_neg htotal]
  cases hrest : (p.consumeTail (p.dlen - be16 h 2)).consume headerLen with
  | none => simp
  | some r =>
    obtain ⟨ip, q⟩ := r
    dsimp only
    by_cases hfor : ForUs st (addr h 16)
    · rw [if_pos hfor, safe_dispatchIpv4_iff, if_neg (by tauto)]
      simp
    · rw [if_neg hfor, if_pos (by tauto)]
      simp

/-- **`handle_arp_pkt`** is harmless behind an Ethernet header. -/
theorem safe_handleArpPkt (h : 14 ≤ p.data) : Safe (handleArpPkt env st p) := by
  unfold handleArpPkt
  by_cases hlen : 28 ≤ p.dlen
  · have hfits := p.fits
    have hread : (p.advance 28 hlen).read p.data 28 = .ok (window p.buffer p.data 28) :=
      Pktbuf.read_of_le (by simp only [Pktbuf.advance_blen]; omega)
    rw [Pktbuf.consume_of_le hlen]
    dsimp only
    rw [safe_bind_of_eq hread]
    split_ifs
    · exact safe_ok _
    · obtain ⟨q, hq, hdata, hdlen, hblen⟩ :=
        Pktbuf.prepend_of_le (p := Pktbuf.alloc env.mem) (show 14 ≤ 64 by omega)
      refine (safe_bind_of_eq hq).2 (Safe.bind (Pktbuf.safe_append_iff.2 ?_) fun q' _ => ?_)
      · simp [hdata, hdlen, hblen]
      · refine Safe.bind ?_ fun eth _ => (safe_bind_of_eq rfl).2 (safe_pure _)
        rw [ethBefore, if_neg (by omega), Pktbuf.safe_read_iff]
        simp only [Pktbuf.advance_blen]
        omega
    · exact safe_ok _
    · exact safe_ok _
  · rw [Pktbuf.consume_of_lt (by omega)]
    exact safe_ok _

/-- The IPv4 header and the packet behind it, of a frame that is for this host. -/
def frameFor (st : Stack κ) (p : Pktbuf) : Option (List UInt8 × Pktbuf) :=
  match p.consume 14 with
  | none => none
  | some (eth, q) =>
    let h := window p.buffer eth 14
    if field h 0 6 ≠ putMac st.minipMac ∧ field h 0 6 ≠ putMac bcastMac then none
    else if be16 h 12 = 0x0800 then ipv4For st q
    else none

/-- **What brings the machine down.**  Any packet, in any state of the ARP cache and of the tables
of UDP and TCP, is read within its buffer and looked up without harm, unless it is a packet for
this host that asks for an echo with more payload than the reply has room for, or from a sender
that is not in the ARP cache and cannot be put there; a datagram to a listener that is `NULL`; or
a segment that starts before the window of the connection that takes it. -/
theorem rx_safe_iff (env : Env) (st : Stack κ) (p : Pktbuf) :
    Safe (minipRxDriverCallback env st p) ↔
      ∀ h q, frameFor st p = some (h, q) → Harmless env st q h := by
  unfold minipRxDriverCallback frameFor
  by_cases hlen : 14 ≤ p.dlen
  · have hfits := p.fits
    have hread : (p.advance 14 hlen).read p.data 14 = .ok (window p.buffer p.data 14) :=
      Pktbuf.read_of_le (by simp only [Pktbuf.advance_blen]; omega)
    rw [Pktbuf.consume_of_le hlen]
    dsimp only
    rw [safe_bind_of_eq hread]
    split_ifs
    · simp
    · exact safe_handleIpv4Packet_iff _
    · exact iff_of_true (safe_handleArpPkt (by simp only [Pktbuf.advance_data]; omega)) (by simp)
    · simp
  · rw [Pktbuf.consume_of_lt (by omega)]
    simp

/-- How a computation comes to a halt. -/
def crashOf {α : Type} : Except Crash α → Option Crash
  | .ok _ => none
  | .error e => some e

/-- No packet brings the machine down. -/
def RxSafe : Prop :=
  ∀ (κ : Type) (env : Env) (st : Stack κ) (p : Pktbuf), Safe (minipRxDriverCallback env st p)

/-- A host at 10.0.0.1 with nothing in its tables. -/
def quietHost : Stack Unit where
  minipMac := macAt [2, 0, 0, 0, 0, 1] 0
  minipIp := 0x0100000A
  minipBroadcast := 0xFF00000A
  arp := []
  udp := []
  tcp := []

/-- Memory is there whenever it is asked for. -/
def roomyEnv : Env where
  w := 64
  w_ge := by decide
  lvl := 1
  malloc := true
  pool := true
  mem := fun _ => 0
  rand := 0
  answer := fun _ => none

/-- A broadcast frame with an echo request to 10.0.0.1 and `n` zeros of payload; `front` are the
two bytes of the total length, `chksum` those of the header checksum and `host` the sender's last
byte. -/
def echoRequest (front chksum : List UInt8) (host : UInt8) (n : ℕ) (h : 42 + n < 2 ^ 32) : Pktbuf where
  buffer i := (List.replicate 6 0xFF ++ [2, 0, 0, 0, 0, 2, 8, 0] ++ [0x45, 0] ++ front ++
    [0, 0, 0, 0, 64, 1] ++ chksum ++ [10, 0, 0, host, 10, 0, 0, 1] ++ [8]).getD i 0
  blen := 42 + n
  data := 0
  dlen := 42 + n
  cksumTcpGood := false
  fits := by omega
  blen_lt := h

/-- **A ping brings the machine down:** from 10.0.0.255 an empty one does, and from 10.0.0.2 one
with 1473 bytes. -/
theorem not_rxSafe : ¬ RxSafe ∧ crashOf (minipRxDriverCallback roomyEnv quietHost
      (echoRequest [0, 28] [101, 226] 255 0 (by decide))) = some .null ∧
    crashOf (minipRxDriverCallback roomyEnv quietHost
      (echoRequest [5, 221] [97, 30] 2 1473 (by decide))) = some .panic := by
  have hnull : crashOf (minipRxDriverCallback roomyEnv quietHost
      (echoRequest [0, 28] [101, 226] 255 0 (by decide))) = some .null := by decide +kernel
  refine ⟨fun hall => ?_, hnull, by decide +kernel⟩
  obtain ⟨a, ha⟩ := hall Unit roomyEnv quietHost
    (echoRequest [0, 28] [101, 226] 255 0 (by decide))
  rw [ha] at hnull
  cases hnull

end Driver

end Minip
end LittleKernel
