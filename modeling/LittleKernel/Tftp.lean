/-
# The TFTP server

`lib/tftp/tftp.c`: the callbacks of the server port and of the transfer ports, and
`end_transfer`; `udp_listen` and the dispatch of `udp_input` of `lib/minip/udp.c`.

A write request that is accepted makes a job listen on a port of its own.  Each datagram
there counts as a block, whatever number it has: it is acknowledged with the count and its
payload goes to the job's callback.  A datagram from elsewhere or with another opcode ends
the transfer, and so does a payload of less than 512 bytes, or a callback that fails.

The last two can come together, and then the transfer ends twice: the second
`end_transfer` finds nothing to remove and leaves a listener without a callback on the
port.  `transfers_ok_iff` says in which runs all transfers go as they should.

A datagram comes with the choices of the system around the server: whether a socket could
be opened to its sender, whether there is memory for a listener, and what the job's
callback returns.  The callbacks of the jobs do not call back into the server, and no
client is registered or removed during a run.
-/

import LittleKernel.Lib.Bytes
import LittleKernel.Lib.Keyed
import LittleKernel.Lib.Machine

namespace LittleKernel
namespace Tftp

open Bytes Machine

/-! ### Datagrams and sockets -/

/-- `TFTP_OPCODE_WRQ`. -/
def opcodeWrq : ℕ := 2

/-- `TFTP_OPCODE_DATA`. -/
def opcodeData : ℕ := 3

/-- `TFTP_ERROR_ACCESS`. -/
def errorAccess : ℕ := 2

/-- `TFTP_ERROR_FULL`. -/
def errorFull : ℕ := 3

/-- `TFTP_ERROR_ILLEGAL_OP`. -/
def errorIllegalOp : ℕ := 4

/-- `TFTP_ERROR_UNKNOWN_XFER`. -/
def errorUnknownXfer : ℕ := 4

/-- `TFTP_ERROR_EXISTS`. -/
def errorExists : ℕ := 6

/-- What `udp_input` hands to a listener, the bytes that happen to stand behind it, and the
choices of the environment. -/
structure Datagram where
  dstPort : UInt16
  srcAddr : UInt32
  srcPort : UInt16
  data : List UInt8
  rest : List UInt8
  opened : Bool
  room : Bool
  result : ℤ
deriving DecidableEq

/-- A 16-bit field in network order. -/
def Datagram.be16 (d : Datagram) (i : ℕ) : ℕ :=
  256 * ((d.data ++ d.rest).getD i 0).toNat + ((d.data ++ d.rest).getD (i + 1) 0).toNat

/-- The file name of a request. -/
def Datagram.fileName (d : Datagram) : CString := CString.ofBytes ((d.data ++ d.rest).drop 2)

/-- `udp_socket_t`. -/
structure Socket where
  host : UInt32
  sport : UInt16
  dport : UInt16
deriving DecidableEq

/-- What the server sends. -/
inductive Packet where
  | ack (socket : Socket) (count : UInt16)
  | error (socket : Socket) (code : ℕ)
deriving DecidableEq

/-! ### Jobs and listeners -/

/-- A data callback: where the datagram came from, its block number and its payload. -/
structure Block where
  addr : UInt32
  port : UInt16
  number : ℕ
  payload : List UInt8
deriving DecidableEq

/-- What happened to one accepted transfer: its client, its data callbacks, the counts it
acknowledged data with, how often it was told its end, and whether data came after that.
The source keeps no such record. -/
structure Transfer where
  addr : UInt32
  port : UInt16
  data : List Block
  acks : List UInt16
  ends : ℕ
  late : Bool
deriving DecidableEq

/-- `tftp_job_t`, with its transfers, the last one first. -/
structure Job where
  fileName : CString
  socket : Option Socket
  srcAddr : UInt32
  srcPort : UInt16
  listenPort : UInt16
  pktCount : UInt16
  transfers : List Transfer
deriving DecidableEq

/-- The callbacks that listen: the server's, that of a transfer, or one of another user. -/
inductive Handler where
  | svc
  | wrq (job : ℕ)
  | other
deriving DecidableEq

/-- `struct udp_listener`; `none` is a `NULL` callback. -/
structure Listener where
  port : UInt16
  callback : Option Handler
deriving DecidableEq

/-- `tftp_list`, `udp_list` and `next_port`, what was sent, and whether a `NULL` callback was
called. -/
structure Server where
  jobs : List Job
  listeners : List Listener
  nextPort : UInt16
  sent : List Packet
  nullCall : Bool
deriving DecidableEq

/-! ### The code -/

/-- `udp_listen`: the listeners, and whether it succeeded.  `room` says whether there is
memory for one more. -/
def udpListen (ls : List Listener) (port : UInt16) (cb : Option Handler) (room : Bool) :
    List Listener × Bool :=
  if ls.any (·.port = port) then
    if cb = none then (ls.eraseP (·.port = port), true) else (ls, false)
  else if room then (ls ++ [⟨port, cb⟩], true)
  else (ls, false)

def Server.sendAck (s : Server) (socket : Socket) (count : UInt16) : Server :=
  { s with sent := s.sent ++ [.ack socket count] }

def Server.sendError (s : Server) (socket : Socket) (code : ℕ) : Server :=
  { s with sent := s.sent ++ [.error socket code] }

/-- The last transfer of a job changes. -/
def Job.onTransfer (job : Job) (f : Transfer → Transfer) : Job :=
  { job with transfers := match job.transfers with
      | [] => []
      | tr :: rest => f tr :: rest }

/-- A datagram that was taken for data, acknowledged with `count`. -/
def Transfer.deliver (tr : Transfer) (d : Datagram) (count : UInt16) : Transfer :=
  { tr with
    acks := tr.acks ++ [count]
    data := tr.data ++ [⟨d.srcAddr, d.srcPort, d.be16 2, d.data.drop 4⟩]
    late := tr.late || tr.ends ≠ 0 }

/-- One more end. -/
def Transfer.end (tr : Transfer) : Transfer := { tr with ends := tr.ends + 1 }

/-- `end_transfer`, with the callback that tells the job. -/
def Server.endTransfer (s : Server) (j : ℕ) (room : Bool) : Server :=
  match s.jobs[j]? with
  | none => s
  | some job =>
    { s with
      listeners := (udpListen s.listeners job.listenPort none room).1
      jobs := s.jobs.set j
        ({ job with socket := none, srcAddr := 0 }.onTransfer Transfer.end) }

/-- The data callback of a job, and the acknowledgement before it. -/
def Server.dataCallback (s : Server) (j : ℕ) (socket : Socket) (d : Datagram) : Server :=
  match s.jobs[j]? with
  | none => s
  | some job =>
    { s.sendAck socket job.pktCount with
      jobs := s.jobs.set j (job.onTransfer (·.deliver d job.pktCount)) }

/-- `udp_wrq_callback`. -/
def Server.wrqCallback (s : Server) (j : ℕ) (d : Datagram) : Server :=
  match s.jobs[j]? with
  | none => s
  | some job =>
    let s := { s with jobs := s.jobs.set j { job with pktCount := job.pktCount + 1 } }
    if d.data.length < 4 then s
    else match job.socket with
    | none => s
    | some socket =>
      if d.srcAddr ≠ job.srcAddr ∨ d.srcPort ≠ job.srcPort then
        (s.sendError socket errorUnknownXfer).endTransfer j d.room
      else if d.be16 0 ≠ opcodeData then
        (s.sendError socket errorIllegalOp).endTransfer j d.room
      else
        let s := s.dataCallback j socket d
        let s := if d.result < 0 then (s.sendError socket errorFull).endTransfer j d.room else s
        if d.data.length ≠ 516 then s.endTransfer j d.room else s

/-- `udp_svc_callback`. -/
def Server.svcCallback (s : Server) (d : Datagram) : Server :=
  if !d.opened then s
  else
    let socket : Socket := ⟨d.srcAddr, s.nextPort, d.srcPort⟩
    if d.be16 0 ≠ opcodeWrq then s.sendError socket errorAccess
    else match s.jobs.findIdx? (·.fileName = d.fileName) with
    | none => s.sendError socket errorUnknownXfer
    | some j => match s.jobs[j]? with
      | none => s
      | some job =>
        if job.socket.isSome then s.sendError socket errorExists
        else
          let job := { job with
            socket := some socket, srcAddr := d.srcAddr, srcPort := d.srcPort,
            pktCount := 0, listenPort := s.nextPort }
          let (ls, ok) := udpListen s.listeners s.nextPort (some (.wrq j)) d.room
          if !ok then { s with jobs := s.jobs.set j job }
          else
            { s.sendAck socket 0 with
              listeners := ls
              nextPort := s.nextPort + 1
              jobs := s.jobs.set j { job with
                transfers := ⟨d.srcAddr, d.srcPort, [], [], 0, false⟩ :: job.transfers } }

/-- `udp_input` on a datagram: the first listener on its port is called. -/
def Server.udpInput (s : Server) (d : Datagram) : Server :=
  match s.listeners.find? (·.port = d.dstPort) with
  | none => s
  | some l => match l.callback with
    | none => { s with nullCall := true }
    | some .svc => s.svcCallback d
    | some (.wrq j) => s.wrqCallback j d
    | some .other => s

/-! ### Transfers as they should be -/

/-- The data callbacks carry the blocks 1, 2, 3, … of the client, every block that was
acknowledged is among them, and there was at most one end, with no data behind it. -/
structure Transfer.Ok (tr : Transfer) : Prop where
  inOrder : ∀ i b, tr.data[i]? = some b →
    b.number = (i + 1) % 2 ^ 16 ∧ b.addr = tr.addr ∧ b.port = tr.port
  acked : ∀ a ∈ tr.acks, ∃ b ∈ tr.data, b.number = a.toNat
  ends_le : tr.ends ≤ 1
  not_late : tr.late = false

/-- All transfers of the job are as they should be, and all but one in progress have been
told their end. -/
structure Job.Ok (job : Job) : Prop where
  transfers : ∀ tr ∈ job.transfers, tr.Ok
  ended : ∀ i tr, job.transfers[i]? = some tr → tr.ends = 0 → i = 0 ∧ job.socket.isSome

/-- All transfers of all jobs are as they should be, and no `NULL` callback was called. -/
structure Server.Ok (s : Server) : Prop where
  jobs : ∀ (j : ℕ) (job : Job), s.jobs[j]? = some job → job.Ok
  nullCall : s.nullCall = false

/-- The datagram is taken for data of the job: it has a header, comes from the client and
has the opcode. -/
def IsData (job : Job) (d : Datagram) : Prop :=
  4 ≤ d.data.length ∧ d.srcAddr = job.srcAddr ∧ d.srcPort = job.srcPort ∧
    d.be16 0 = opcodeData

instance (job : Job) (d : Datagram) : Decidable (IsData job d) := by
  unfold IsData; infer_instance

/-- What has to hold of a datagram that is taken for data: its block is the next one, the
count of datagrams is the number of a block that has been delivered then, and the callback
takes a last block. -/
def DataOk (job : Job) (tr : Transfer) (d : Datagram) : Prop :=
  d.be16 2 = (tr.data.length + 1) % 2 ^ 16 ∧
    (d.be16 2 = (job.pktCount + 1).toNat ∨
      ∃ b ∈ tr.data, b.number = (job.pktCount + 1).toNat) ∧
    (d.result < 0 → d.data.length = 516)

instance (job : Job) (tr : Transfer) (d : Datagram) : Decidable (DataOk job tr d) := by
  unfold DataOk; infer_instance

/-- The listener that takes the datagram is not that of a transfer, or the datagram is no
data, or it is the data that is due. -/
def DatagramOk (s : Server) (d : Datagram) : Prop :=
  match (s.listeners.find? (·.port = d.dstPort)).bind (·.callback) with
  | some (.wrq j) => match s.jobs[j]? with
    | some job => match job.transfers with
      | tr :: _ => IsData job d → DataOk job tr d
      | [] => True
    | none => True
  | _ => True

instance (s : Server) (d : Datagram) : Decidable (DatagramOk s d) := by
  unfold DatagramOk
  split
  · split
    · split <;> infer_instance
    · infer_instance
  · infer_instance

/-- The listeners of transfers are the jobs in progress. -/
structure Server.Inv (s : Server) : Prop where
  ports : (s.listeners.map (·.port)).Nodup
  callback : ∀ l ∈ s.listeners, l.callback ≠ none
  active : ∀ l ∈ s.listeners, ∀ j, l.callback = some (.wrq j) →
    ∃ job tr rest socket, s.jobs[j]? = some job ∧ job.socket = some socket ∧
      job.listenPort = l.port ∧ job.transfers = tr :: rest ∧ tr.ends = 0 ∧
      tr.addr = job.srcAddr ∧ tr.port = job.srcPort

/-- A server with its clients registered and no transfer yet. -/
structure Server.Initial (s : Server) : Prop where
  ports : (s.listeners.map (·.port)).Nodup
  callback : ∀ l ∈ s.listeners, l.callback ≠ none
  noWrq : ∀ l ∈ s.listeners, ∀ j, l.callback ≠ some (.wrq j)
  jobs : ∀ (j : ℕ) (job : Job), s.jobs[j]? = some job → job.transfers = []
  nullCall : s.nullCall = false

/-! ### Listening -/

variable {l : Listener}

theorem udpListen_remove {ls : List Listener} (hl : l ∈ ls) (room : Bool) :
    udpListen ls l.port none room = (ls.eraseP (·.port = l.port), true) := by
  have hany : ls.any (·.port = l.port) = true := List.any_eq_true.mpr ⟨l, hl, by simp⟩
  rw [udpListen, if_pos hany, if_pos rfl]

/-- A listener that is added is the only one on its port. -/
theorem udpListen_add {ls ls' : List Listener} {port : UInt16} {cb : Handler} {room : Bool}
    (h : udpListen ls port (some cb) room = (ls', true)) :
    ls' = ls ++ [⟨port, some cb⟩] ∧ port ∉ ls.map (·.port) := by
  rw [udpListen] at h
  split at h
  · simp at h
  · rename_i hany
    split at h
    · simp only [Prod.mk.injEq, and_true] at h
      refine ⟨h.symm, fun hmem => hany ?_⟩
      obtain ⟨l, hl, he⟩ := List.mem_map.mp hmem
      exact List.any_eq_true.mpr ⟨l, hl, by simpa using he⟩
    · simp at h

/-! ### One job -/

variable {j : ℕ}

/-- Only the job that changes has to be looked at. -/
theorem jobs_ok_set {jobs : List Job} {old job : Job}
    (h : ∀ (i : ℕ) (x : Job), jobs[i]? = some x → x.Ok) (hj : jobs[j]? = some old) :
    (∀ (i : ℕ) (x : Job), (jobs.set j job)[i]? = some x → x.Ok) ↔ job.Ok := by
  have hlt := (List.getElem?_eq_some_iff.mp hj).1
  constructor
  · intro h'
    exact h' j job (List.getElem?_set_self hlt)
  · intro hok i x hx
    by_cases hij : j = i
    · subst hij
      rw [List.getElem?_set_self hlt, Option.some.injEq] at hx
      exact hx ▸ hok
    · rw [List.getElem?_set_ne hij] at hx
      exact h i x hx

/-- A step that changes one job. -/
theorem Server.Ok.set_iff {s s' : Server} {old job : Job} (h : s.Ok)
    (hj : s.jobs[j]? = some old) (hjobs : s'.jobs = s.jobs.set j job)
    (hnull : s'.nullCall = s.nullCall) : s'.Ok ↔ job.Ok := by
  rw [← jobs_ok_set h.jobs hj, ← hjobs]
  exact ⟨fun h' => h'.jobs, fun h' => ⟨h', hnull.trans h.nullCall⟩⟩

variable {tr : Transfer}

/-- One more data callback keeps a transfer in order if and only if its block is the next
one and the count that is acknowledged is one of a delivered block. -/
theorem Transfer.ok_deliver (h : tr.Ok) (he : tr.ends = 0) {d : Datagram}
    (hd : d.srcAddr = tr.addr ∧ d.srcPort = tr.port) (a : UInt16) :
    (tr.deliver d a).Ok ↔ d.be16 2 = (tr.data.length + 1) % 2 ^ 16 ∧
      (d.be16 2 = a.toNat ∨ ∃ b ∈ tr.data, b.number = a.toNat) := by
  have hlate : (tr.deliver d a).late = false := by
    simp [Transfer.deliver, h.not_late, he]
  constructor
  · intro hok
    refine ⟨(hok.inOrder tr.data.length ⟨d.srcAddr, d.srcPort, d.be16 2, d.data.drop 4⟩
      (by simp [Transfer.deliver])).1, ?_⟩
    obtain ⟨b, hb, hn⟩ := hok.acked a (by simp [Transfer.deliver])
    rcases List.mem_append.mp hb with hb | hb
    · exact .inr ⟨b, hb, hn⟩
    · rw [List.mem_singleton] at hb
      subst hb
      exact .inl hn
  · rintro ⟨hn, ha⟩
    refine ⟨fun i b hi => ?_, fun a' ha' => ?_, he.trans_le (by omega), hlate⟩
    · simp only [Transfer.deliver] at hi
      rcases lt_or_ge i tr.data.length with hlt | hge
      · rw [List.getElem?_append_left hlt] at hi
        exact h.inOrder i b hi
      · have hlt := (List.getElem?_eq_some_iff.mp hi).1
        have hi' : i = tr.data.length := by simp at hlt; omega
        subst hi'
        simp only [List.getElem?_concat_length, Option.some.injEq] at hi
        exact hi ▸ ⟨hn, hd⟩
    · rcases List.mem_append.mp ha' with ha' | ha'
      · obtain ⟨b, hb, hn'⟩ := h.acked a' ha'
        exact ⟨b, List.mem_append_left _ hb, hn'⟩
      · rw [List.mem_singleton] at ha'
        subst ha'
        rcases ha with hn' | ⟨b, hb, hn'⟩
        · exact ⟨⟨d.srcAddr, d.srcPort, d.be16 2, d.data.drop 4⟩, by simp [Transfer.deliver], hn'⟩
        · exact ⟨b, List.mem_append_left _ hb, hn'⟩

theorem Transfer.ok_end (he : tr.ends = 0) : tr.end.Ok ↔ tr.Ok :=
  ⟨fun h => ⟨h.inOrder, h.acked, by omega, h.not_late⟩,
    fun h => ⟨h.inOrder, h.acked, by simp [Transfer.end, he], h.not_late⟩⟩

variable {job job' : Job} {rest : List Transfer}

/-- A job whose last transfer changes is as it should be if and only if that transfer is,
and the job is in progress as long as it has no end. -/
theorem Job.ok_onTransfer {tr tr' : Transfer}
    (h : job.Ok) (ht : job.transfers = tr :: rest) (ht' : job'.transfers = tr' :: rest)
    (hsock : tr'.ends = 0 → job'.socket.isSome) : job'.Ok ↔ tr'.Ok := by
  constructor
  · intro hok
    exact hok.transfers tr' (by rw [ht']; exact List.mem_cons_self)
  · intro hok
    refine ⟨fun x hx => ?_, fun i x hx he => ?_⟩
    · rw [ht'] at hx
      rcases List.mem_cons.mp hx with rfl | hx
      · exact hok
      · exact h.transfers x (by rw [ht]; exact List.mem_cons_of_mem _ hx)
    · rw [ht'] at hx
      cases i with
      | zero =>
        simp only [List.getElem?_cons_zero, Option.some.injEq] at hx
        exact ⟨rfl, hsock (hx ▸ he)⟩
      | succ i =>
        have := (h.ended (i + 1) x (by rw [ht]; exact hx) he).1
        omega

/-! ### The invariant -/

variable {s : Server}

/-- A job has one listener. -/
theorem Server.Inv.listener_unique (h : s.Inv) {l l' : Listener}
    (hl : l ∈ s.listeners) (hl' : l' ∈ s.listeners) (hj : l.callback = some (.wrq j))
    (hj' : l'.callback = some (.wrq j)) : l = l' := by
  obtain ⟨job, _, _, _, hjob, _, hport, _⟩ := h.active l hl j hj
  obtain ⟨job', _, _, _, hjob', _, hport', _⟩ := h.active l' hl' j hj'
  rw [hjob] at hjob'
  cases hjob'
  exact Keyed.eq_of_key h.ports hl hl' (hport.symm.trans hport')

/-- A change of a job in progress that stays in progress. -/
theorem Server.Inv.update {s s' : Server} (h : s.Inv) {tr tr' : Transfer} {socket : Socket}
    (hls : s'.listeners = s.listeners) (hjobs : s'.jobs = s.jobs.set j job')
    (hj : s.jobs[j]? = some job) (hsock : job'.socket = some socket)
    (hport : job'.listenPort = job.listenPort) (ht : job.transfers = tr :: rest)
    (ht' : job'.transfers = tr' :: rest) (he : tr'.ends = 0)
    (haddr : tr'.addr = tr.addr ∧ tr'.port = tr.port)
    (hsrc : job'.srcAddr = job.srcAddr ∧ job'.srcPort = job.srcPort) : s'.Inv := by
  refine ⟨hls ▸ h.ports, hls ▸ h.callback, fun l hl i hi => ?_⟩
  rw [hls] at hl
  obtain ⟨x, t, r, so, hx, hso, hp, htr, hte, ha, hpo⟩ := h.active l hl i hi
  rw [hjobs]
  by_cases hij : j = i
  · subst hij
    rw [hj] at hx
    cases hx
    rw [ht] at htr
    cases htr
    refine ⟨job', tr', rest, socket, List.getElem?_set_self (List.getElem?_eq_some_iff.mp hj).1,
      hsock, by rw [hport, hp], ht', he, ?_, ?_⟩
    · rw [haddr.1, hsrc.1, ha]
    · rw [haddr.2, hsrc.2, hpo]
  · exact ⟨x, t, r, so, by rw [List.getElem?_set_ne hij]; exact hx, hso, hp, htr, hte, ha, hpo⟩

/-- The end of a transfer: its listener goes away with it. -/
theorem Server.Inv.end {s s' : Server} (h : s.Inv) {job' : Job}
    (hl : l ∈ s.listeners) (hlj : l.callback = some (.wrq j))
    (hls : s'.listeners = s.listeners.eraseP (·.port = l.port))
    (hjobs : s'.jobs = s.jobs.set j job') : s'.Inv := by
  have hsub := List.eraseP_sublist (p := fun l' : Listener => decide (l'.port = l.port))
    (l := s.listeners)
  refine ⟨?_, fun l' hl' => ?_, fun l' hl' i hi => ?_⟩
  · rw [hls]
    exact h.ports.sublist (hsub.map _)
  · rw [hls] at hl'
    exact h.callback l' (hsub.subset hl')
  · rw [hls] at hl'
    obtain ⟨hmem, hne⟩ := Keyed.mem_eraseP h.ports hl'
    obtain ⟨x, t, r, so, hx, hrest⟩ := h.active l' hmem i hi
    have hij : j ≠ i := by
      rintro rfl
      exact hne (congrArg Listener.port (h.listener_unique hmem hl hi hlj))
    rw [hjobs]
    exact ⟨x, t, r, so, by rw [List.getElem?_set_ne hij]; exact hx, hrest⟩

/-! ### One datagram -/

/-- What `end_transfer` leaves of a job in progress. -/
def Job.ended (job : Job) : Job :=
  { job with socket := none, srcAddr := 0 }.onTransfer Transfer.end

theorem endTransfer_eq {job : Job} {room : Bool}
    (hj : s.jobs[j]? = some job) : s.endTransfer j room =
      { s with
        listeners := (udpListen s.listeners job.listenPort none room).1
        jobs := s.jobs.set j job.ended } := by
  rw [Server.endTransfer, hj]
  rfl

/-- The end of a transfer that is listening takes its listener away. -/
theorem endTransfer_listening {s' : Server} {x : Job} {room : Bool} (hl : l ∈ s.listeners)
    (hlt : j < s.jobs.length) (hls : s'.listeners = s.listeners)
    (hjobs : s'.jobs = s.jobs.set j x) (hnext : s'.nextPort = s.nextPort)
    (hnull : s'.nullCall = s.nullCall) (hx : x.listenPort = l.port) : s'.endTransfer j room =
      { s with
        sent := s'.sent
        listeners := s.listeners.eraseP (·.port = l.port)
        jobs := s.jobs.set j x.ended } := by
  rw [@endTransfer_eq _ _ x _ (by rw [hjobs]; exact List.getElem?_set_self hlt)]
  simp only [hls, hjobs, hnext, hnull, hx, udpListen_remove hl, List.set_set]

/-- The job when a datagram was taken for data. -/
def Job.delivered (job : Job) (d : Datagram) : Job :=
  { job with pktCount := job.pktCount + 1 }.onTransfer (·.deliver d (job.pktCount + 1))

section Transfer

variable {d : Datagram} {socket : Socket}

/-- What a datagram taken for data does: it is acknowledged and handed on, and the transfer ends
where the callback fails, and where the block is not a full one. -/
theorem wrqCallback_data (hj : s.jobs[j]? = some job) (hsock : job.socket = some socket)
    (hd : IsData job d) : s.wrqCallback j d = (fun s : Server =>
      let s := if d.result < 0 then (s.sendError socket errorFull).endTransfer j d.room else s
      if d.data.length ≠ 516 then s.endTransfer j d.room else s)
      { s with
        sent := s.sent ++ [.ack socket (job.pktCount + 1)]
        jobs := s.jobs.set j (job.delivered d) } := by
  obtain ⟨hlen, h₁, h₂, h₃⟩ := hd
  have hself : (s.jobs.set j { job with pktCount := job.pktCount + 1 })[j]? = some _ :=
    List.getElem?_set_self (List.getElem?_eq_some_iff.mp hj).1
  have hsrc : ¬ (d.srcAddr ≠ job.srcAddr ∨ d.srcPort ≠ job.srcPort) := by
    rintro (h | h)
    · exact h h₁
    · exact h h₂
  have hbase : ({ s with jobs := s.jobs.set j { job with pktCount := job.pktCount + 1 } } :
      Server).dataCallback j socket d =
      { s with
        sent := s.sent ++ [.ack socket (job.pktCount + 1)]
        jobs := s.jobs.set j (job.delivered d) } := by
    rw [Server.dataCallback]
    simp only [hself, Server.sendAck, List.set_set]
    rfl
  rw [Server.wrqCallback, hj]
  simp only [hsock] at hbase ⊢
  simp only [if_neg (show ¬ d.data.length < 4 by omega), if_neg hsrc, if_neg (not_not.mpr h₃), hbase]

variable (hi : s.Inv) (hok : s.Ok) (hl : l ∈ s.listeners) (hlj : l.callback = some (.wrq j))
  (hj : s.jobs[j]? = some job) (hsock : job.socket = some socket)
  (hport : job.listenPort = l.port) (ht : job.transfers = tr :: rest) (he : tr.ends = 0)

include hi hok hj hsock ht he

/-- A datagram without a header is counted, and that is all. -/
theorem wrqCallback_short (hlen : d.data.length < 4) :
    (s.wrqCallback j d).Ok ∧ (s.wrqCallback j d).Inv := by
  have hjobok := hok.jobs j job hj
  have htr : tr.Ok := hjobok.transfers tr (by rw [ht]; exact List.mem_cons_self)
  have hres : s.wrqCallback j d =
      { s with jobs := s.jobs.set j { job with pktCount := job.pktCount + 1 } } := by
    rw [Server.wrqCallback, hj]
    simp [hlen]
  constructor
  · rw [hok.set_iff hj (by rw [hres]) (by rw [hres])]
    exact (@Job.ok_onTransfer _ { job with pktCount := job.pktCount + 1 } _ _ _ hjobok ht ht
      fun _ => by simp [hsock]).mpr htr
  · rw [hres]
    exact hi.update rfl rfl hj hsock rfl ht ht he ⟨rfl, rfl⟩ ⟨rfl, rfl⟩

include hl hlj hport

/-- A datagram from elsewhere, or with another opcode, ends the transfer. -/
theorem wrqCallback_foreign (hlen : ¬ d.data.length < 4)
    (hdata : ¬ (d.srcAddr = job.srcAddr ∧ d.srcPort = job.srcPort ∧ d.be16 0 = opcodeData)) :
    (s.wrqCallback j d).Ok ∧ (s.wrqCallback j d).Inv := by
  have hlt := (List.getElem?_eq_some_iff.mp hj).1
  have hjobok := hok.jobs j job hj
  have htr : tr.Ok := hjobok.transfers tr (by rw [ht]; exact List.mem_cons_self)
  obtain ⟨sent, hres⟩ : ∃ sent, s.wrqCallback j d =
      { s with
        sent := sent
        listeners := s.listeners.eraseP (·.port = l.port)
        jobs := s.jobs.set j { job with pktCount := job.pktCount + 1 }.ended } := by
    rw [Server.wrqCallback, hj]
    simp only [hlen, if_false, hsock]
    by_cases hsrc : d.srcAddr ≠ job.srcAddr ∨ d.srcPort ≠ job.srcPort
    · rw [if_pos hsrc]
      exact ⟨_, endTransfer_listening hl hlt rfl rfl rfl rfl hport⟩
    · have hop : d.be16 0 ≠ opcodeData := fun h => by
        push Not at hsrc
        exact hdata ⟨hsrc.1, hsrc.2, h⟩
      rw [if_neg hsrc, if_pos hop]
      exact ⟨_, endTransfer_listening hl hlt rfl rfl rfl rfl hport⟩
  have ht' : ({ job with pktCount := job.pktCount + 1 } : Job).ended.transfers = tr.end :: rest := by
    simp only [Job.ended, Job.onTransfer, ht]
  constructor
  · rw [hok.set_iff hj (by rw [hres]) (by rw [hres])]
    exact (Job.ok_onTransfer hjobok ht ht'
      fun h => by simp [Transfer.end] at h).mpr ((Transfer.ok_end he).mpr htr)
  · exact hi.end hl hlj (by rw [hres]) (by rw [hres])

/-- **A datagram at a transfer port.**  As long as what has happened to the transfers is right the
invariant is kept, and it stays right exactly when a datagram taken for data is the next block. -/
theorem wrqCallback_step (haddr : tr.addr = job.srcAddr ∧ tr.port = job.srcPort) :
    ((s.wrqCallback j d).Ok → (s.wrqCallback j d).Inv) ∧
      ((s.wrqCallback j d).Ok ↔ (IsData job d → DataOk job tr d)) := by
  by_cases hlen : d.data.length < 4
  · obtain ⟨hok', hinv⟩ := wrqCallback_short hi hok hj hsock ht he hlen
    exact ⟨fun _ => hinv, iff_of_true hok' fun h => absurd h.1 (by omega)⟩
  by_cases hdata : d.srcAddr = job.srcAddr ∧ d.srcPort = job.srcPort ∧ d.be16 0 = opcodeData
  swap
  · obtain ⟨hok', hinv⟩ := wrqCallback_foreign hi hok hl hlj hj hsock hport ht he hlen hdata
    exact ⟨fun _ => hinv, iff_of_true hok' fun h => absurd h.2 hdata⟩
  have hlt := (List.getElem?_eq_some_iff.mp hj).1
  have hjobok := hok.jobs j job hj
  have htr : tr.Ok := hjobok.transfers tr (by rw [ht]; exact List.mem_cons_self)
  have hisdata : IsData job d := ⟨by omega, hdata⟩
  have hpre := wrqCallback_data hj hsock hisdata
  obtain ⟨h₁, h₂, -⟩ := hdata
  have ht' : (job.delivered d).transfers = tr.deliver d (job.pktCount + 1) :: rest := by
    simp only [Job.delivered, Job.onTransfer, ht]
  have hdeliver := Transfer.ok_deliver htr he (d := d)
    ⟨h₁.trans haddr.1.symm, h₂.trans haddr.2.symm⟩ (job.pktCount + 1)
  have hend' : (job.delivered d).ended.transfers = (tr.deliver d (job.pktCount + 1)).end :: rest := by
    simp only [Job.ended, Job.onTransfer, ht']
  have hdelends : (tr.deliver d (job.pktCount + 1)).ends = 0 := he
  -- the state after one end
  have hone : ∀ sent, s.wrqCallback j d =
      { s with
        sent := sent
        listeners := s.listeners.eraseP (·.port = l.port)
        jobs := s.jobs.set j (job.delivered d).ended } →
      (s.wrqCallback j d).Inv ∧
        ((s.wrqCallback j d).Ok ↔ (tr.deliver d (job.pktCount + 1)).Ok) := fun sent h => by
    refine ⟨hi.end hl hlj (by rw [h]) (by rw [h]), ?_⟩
    rw [hok.set_iff hj (by rw [h]) (by rw [h]), Job.ok_onTransfer hjobok ht hend'
      fun h => by simp [Transfer.end] at h, Transfer.ok_end hdelends]
  by_cases hfail : d.result < 0 <;> by_cases h516 : d.data.length = 516
  · -- the callback fails on a full block: one end
    obtain ⟨hinv, hiff⟩ := hone (s.sent ++ [.ack socket (job.pktCount + 1)] ++
      [.error socket errorFull]) (by
        rw [hpre]
        simp only [if_pos hfail, h516, ne_eq, not_true_eq_false, if_false, Server.sendError]
        exact @endTransfer_listening _ _ _ _ (job.delivered d) _ hl hlt rfl rfl rfl rfl hport)
    refine ⟨fun _ => hinv, (hiff.trans hdeliver).trans ?_⟩
    simp [hisdata, DataOk, h516]
  · -- it fails on a last block: two ends
    have hres : s.wrqCallback j d = (({ s with
        sent := s.sent ++ [.ack socket (job.pktCount + 1)] ++ [.error socket errorFull]
        listeners := s.listeners.eraseP (·.port = l.port)
        jobs := s.jobs.set j (job.delivered d).ended } : Server).endTransfer j d.room) := by
      rw [hpre]
      simp only [if_pos hfail, h516, ne_eq, not_false_eq_true, if_true, Server.sendError]
      exact congrArg (·.endTransfer j d.room)
        (@endTransfer_listening _ _ _ { s with
          sent := s.sent ++ [.ack socket (job.pktCount + 1)] ++ [.error socket errorFull]
          jobs := s.jobs.set j (job.delivered d) } (job.delivered d) _ hl hlt rfl rfl rfl rfl hport)
    have hbad : ¬ (s.wrqCallback j d).Ok := by
      rw [hres, endTransfer_eq (by exact List.getElem?_set_self hlt)]
      intro h
      have hjob := h.jobs j (job.delivered d).ended.ended (by simp [hlt])
      have := (hjob.transfers (tr.deliver d (job.pktCount + 1)).end.end (by
        simp only [Job.ended, Job.onTransfer, ht']
        exact List.mem_cons_self)).ends_le
      simp [Transfer.end] at this
    refine ⟨fun h => absurd h hbad, iff_of_false hbad fun h => ?_⟩
    exact h516 ((h hisdata).2.2 hfail)
  · -- the transfer goes on
    have hres : s.wrqCallback j d = { s with
        sent := s.sent ++ [.ack socket (job.pktCount + 1)]
        jobs := s.jobs.set j (job.delivered d) } := by
      rw [hpre]
      simp [hfail, h516]
    have hsock' : (job.delivered d).socket = some socket := hsock
    refine ⟨fun _ => ?_, ?_⟩
    · rw [hres]
      exact hi.update rfl rfl hj hsock' rfl ht ht' hdelends ⟨rfl, rfl⟩ ⟨rfl, rfl⟩
    · rw [hok.set_iff hj (by rw [hres]) (by rw [hres]),
        Job.ok_onTransfer hjobok ht ht' fun _ => by simp [hsock'], hdeliver]
      simp [hisdata, DataOk, h516]
  · -- the last block: one end
    obtain ⟨hinv, hiff⟩ := hone (s.sent ++ [.ack socket (job.pktCount + 1)]) (by
      rw [hpre]
      simp only [if_neg hfail, h516, ne_eq, not_false_eq_true, if_true]
      exact @endTransfer_listening _ _ _ _ (job.delivered d) _ hl hlt rfl rfl rfl rfl hport)
    refine ⟨fun _ => hinv, (hiff.trans hdeliver).trans ?_⟩
    simp [hisdata, DataOk, hfail]

end Transfer

/-- A job that is not in progress has no listener, so changing it touches no other. -/
theorem Server.Inv.active_set (h : s.Inv) (hj : s.jobs[j]? = some job) (hsock : job.socket = none)
    (hl : l ∈ s.listeners) {i : ℕ} (hi : l.callback = some (.wrq i)) :
    ∃ x tr rest socket, (s.jobs.set j job')[i]? = some x ∧ x.socket = some socket ∧
      x.listenPort = l.port ∧ x.transfers = tr :: rest ∧ tr.ends = 0 ∧
      tr.addr = x.srcAddr ∧ tr.port = x.srcPort := by
  obtain ⟨x, tr, rest, socket, hx, hso, hrest⟩ := h.active l hl i hi
  have hij : j ≠ i := by
    rintro rfl
    rw [hj] at hx
    cases hx
    rw [hsock] at hso
    cases hso
  exact ⟨x, tr, rest, socket, by rw [List.getElem?_set_ne hij]; exact hx, hso, hrest⟩

/-- All transfers of a job that is not in progress have been told their end. -/
theorem Job.Ok.not_zero {job : Job} (h : job.Ok) (hsock : job.socket = none) {i : ℕ}
    (hi : job.transfers[i]? = some tr) : tr.ends ≠ 0 := by
  intro he
  have := (h.ended i tr hi he).2
  rw [hsock] at this
  cases this

/-- **A datagram at the server port.** -/
theorem svcCallback_step (d : Datagram) (hi : s.Inv) (hok : s.Ok) :
    (s.svcCallback d).Inv ∧ (s.svcCallback d).Ok := by
  have herr : ∀ socket code, (s.sendError socket code).Inv ∧ (s.sendError socket code).Ok :=
    fun _ _ => ⟨⟨hi.ports, hi.callback, hi.active⟩, ⟨hok.jobs, hok.nullCall⟩⟩
  unfold Server.svcCallback
  split
  · exact ⟨hi, hok⟩
  simp only
  split
  · exact herr _ _
  split
  · exact herr _ _
  rename_i j hidx
  split
  · exact ⟨hi, hok⟩
  rename_i job hj
  split
  · exact herr _ _
  rename_i hsome
  have hsock : job.socket = none := by simpa using hsome
  have hlt := (List.getElem?_eq_some_iff.mp hj).1
  have hjobok := hok.jobs j job hj
  cases hlisten : udpListen s.listeners s.nextPort (some (.wrq j)) d.room with
  | mk ls ok =>
    cases ok with
    | false =>
      -- the job keeps a socket that nobody listens for
      refine ⟨⟨hi.ports, hi.callback, fun l hl i hli => hi.active_set hj hsock hl hli⟩, ?_⟩
      refine ⟨(jobs_ok_set hok.jobs hj).mpr ⟨hjobok.transfers, fun i tr hi he => ?_⟩,
        hok.nullCall⟩
      exact absurd he (hjobok.not_zero hsock hi)
    | true =>
      obtain ⟨rfl, hport⟩ := udpListen_add hlisten
      have hports : ((s.listeners ++ [(⟨s.nextPort, some (.wrq j)⟩ : Listener)]).map
          (·.port)).Nodup :=
        Keyed.nodup_concat hi.ports fun l hl he =>
          hport (List.mem_map.mpr ⟨l, hl, by simpa using he⟩)
      refine ⟨⟨hports, fun l hl => ?_, fun l hl i hli => ?_⟩, ?_⟩
      · rcases List.mem_append.mp hl with hl | hl
        · exact hi.callback l hl
        · rw [List.mem_singleton] at hl
          simp [hl]
      · rcases List.mem_append.mp hl with hl | hl
        · exact hi.active_set hj hsock hl hli
        · rw [List.mem_singleton] at hl
          subst hl
          cases hli
          exact ⟨_, _, _, _, List.getElem?_set_self hlt, rfl, rfl, rfl, rfl, rfl, rfl⟩
      · refine ⟨(jobs_ok_set hok.jobs hj).mpr ⟨fun tr htr => ?_, fun i tr hi he => ?_⟩,
          hok.nullCall⟩
        · rcases List.mem_cons.mp htr with rfl | htr
          · exact ⟨by simp, by simp, by simp, rfl⟩
          · exact hjobok.transfers tr htr
        · cases i with
          | zero => exact ⟨rfl, rfl⟩
          | succ i => exact absurd he (hjobok.not_zero hsock hi)

/-- **One datagram.** It keeps all transfers as they should be if and only if it meets its
condition. -/
theorem udpInput_step (d : Datagram) (hi : s.Inv) (hok : s.Ok) :
    ((s.udpInput d).Ok → (s.udpInput d).Inv) ∧ ((s.udpInput d).Ok ↔ DatagramOk s d) := by
  unfold Server.udpInput DatagramOk
  cases hfind : s.listeners.find? (·.port = d.dstPort) with
  | none => exact ⟨fun _ => hi, iff_of_true hok trivial⟩
  | some l =>
    have hl := List.mem_of_find?_eq_some hfind
    simp only [Option.bind_some]
    cases hlj : l.callback with
    | none => exact absurd hlj (hi.callback l hl)
    | some cb =>
      cases cb with
      | svc =>
        obtain ⟨hinv, hok'⟩ := svcCallback_step d hi hok
        exact ⟨fun _ => hinv, iff_of_true hok' trivial⟩
      | other => exact ⟨fun _ => hi, iff_of_true hok trivial⟩
      | wrq j =>
        obtain ⟨job, tr, rest, socket, hj, hsock, hport, ht, he, haddr⟩ := hi.active l hl j hlj
        simp only [hj, ht]
        exact wrqCallback_step hi hok hl hlj hj hsock hport ht he haddr

/-! ### Runs -/

theorem Server.Initial.inv (h : s.Initial) : s.Inv :=
  ⟨h.ports, h.callback, fun l hl j hj => absurd hj (h.noWrq l hl j)⟩

theorem Server.Initial.ok (h : s.Initial) : s.Ok := by
  refine ⟨fun j job hj => ?_, h.nullCall⟩
  have := h.jobs j job hj
  exact ⟨fun tr htr => by simp [this] at htr, fun i tr hi => by simp [this] at hi⟩

/-- The server as a machine that takes datagrams. -/
def step (s : Server) (d : Datagram) : Option Server := some (s.udpInput d)

/-- **TFTP transfers.** From a server with its clients registered and any run of datagrams:
in every state on the way each transfer has delivered the blocks 1, 2, 3, … of its client in
order, has acknowledged only delivered blocks, has been told its end at most once and exactly
once when it is over, with no data behind it, and no `NULL` callback was called, if and only
if every datagram that is taken for data brings the next block, with a count that is the
number of a delivered block, and a callback that does not fail on a last block. -/
theorem transfers_ok_iff (h : s.Initial) (ds : List Datagram) :
    Throughout step Server.Ok s ds ↔ Along step DatagramOk s ds := by
  obtain ⟨s', hrun⟩ := run_total (fun s d => ⟨s.udpInput d, rfl⟩) ds s
  refine @throughout_iff_along _ _ _ _ (fun s => s.Ok → s.Inv) _ (fun s d s' hi hok hs => ?_) ds s s'
    (fun _ => h.inv) h.ok hrun
  cases hs
  exact udpInput_step d (hi hok) hok

/-- A server with a client for the file `a`. -/
def oneClient : Server where
  jobs := [⟨⟨[0x61], nonul_letter⟩, none, 0, 0, 0, 0, []⟩]
  listeners := [⟨69, some .svc⟩]
  nextPort := 2224
  sent := []
  nullCall := false

theorem initial_oneClient : oneClient.Initial := by
  refine ⟨by decide, by decide, fun l hl j => ?_, fun j job hj => ?_, rfl⟩
  · obtain rfl : l = ⟨69, some .svc⟩ := by simpa [oneClient] using hl
    simp
  · cases j with
    | zero =>
      cases hj
      rfl
    | succ j => cases hj

/-- The request to write `a`. -/
def request : Datagram := ⟨69, 0x0100000a, 3000, [0, 2, 0x61, 0], [], true, true, 0⟩

/-- A block of one byte at the first transfer port, and what the job's callback returns. -/
def shortBlock (number : UInt8) (result : ℤ) : Datagram :=
  ⟨2224, 0x0100000a, 3000, [0, 3, 0, number, 0x78], [], true, true, result⟩

/-- A file of one short block is transferred as it should be. -/
theorem transfers_ok_iff_short :
    Throughout step Server.Ok oneClient [request, shortBlock 1 0] :=
  (transfers_ok_iff initial_oneClient [request, shortBlock 1 0]).mpr (by decide)

/-- Block 2 is delivered and acknowledged as block 1; a callback that fails on a last block is
told the end twice, and the next datagram at the port calls a `NULL` callback. -/
theorem transfers_faults :
    (∃ s, run step oneClient [request, shortBlock 2 0] = some s ∧ ¬ s.Ok ∧
      s.jobs.map (·.transfers) =
        [[⟨0x0100000a, 3000, [⟨0x0100000a, 3000, 2, [0x78]⟩], [1], 1, false⟩]]) ∧
    (∃ s, run step oneClient [request, shortBlock 1 (-1)] = some s ∧ ¬ s.Ok ∧
      s.jobs.map (·.transfers) =
        [[⟨0x0100000a, 3000, [⟨0x0100000a, 3000, 1, [0x78]⟩], [1], 2, false⟩]]) ∧
    ∃ s, run step oneClient [request, shortBlock 1 (-1), shortBlock 2 0] = some s ∧
      s.nullCall = true ∧ ¬ s.Ok := by
  refine ⟨⟨_, rfl, fun h => ?_, by decide⟩, ⟨_, rfl, fun h => ?_, by decide⟩,
    ⟨_, rfl, by decide, fun h => ?_⟩⟩
  · have := ((h.jobs 0 _ rfl).transfers _ List.mem_cons_self).inOrder 0 _ rfl
    exact absurd this.1 (by decide)
  · have := ((h.jobs 0 _ rfl).transfers _ List.mem_cons_self).ends_le
    exact absurd this (by decide)
  · exact absurd h.nullCall (by decide)

end Tftp
end LittleKernel
