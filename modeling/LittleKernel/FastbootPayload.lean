/-
# The payload of a fastboot download

`dev/usb/device/fastboot/fastboot-device.c`: `ready_to_rx_cmd`, `do_payload`, `check_payload_done`,
`tx_status_callback`, `fastboot_set_payload_data`, `fastboot_send_status`, `wait_rx_done`; of
`fastboot-cmd.c` the handlers that these have to do with.

A transfer of the bulk-out endpoint is armed with an address and a size, which the controller rounds
up to whole packets; it is done with the packet that fills it or with a short one.  What has come in
by then is a command, or in a payload phase a part of the download, and the rest of the download is
armed behind it.  Nothing is armed before the response to the last command has left.

How much has been announced and which byte was stored where is written down beside the state.
-/

import Mathlib.Data.List.Range
import LittleKernel.Lib.Bytes
import LittleKernel.Fastboot

namespace LittleKernel
namespace FastbootPayload

open Word Bytes Machine Fastboot

/-- `CFG_FASTBOOT_TRANSFER_BUFFER`. -/
def transferBuffer : ℕ := 0x8B000000

/-- `wMaxPacketSize`. -/
def maxPacket : ℕ := 512

/-- `payload_phase`. -/
inductive Phase
  | none
  | inProgress
  | startMark
  deriving DecidableEq

/-- `USBDIR_OUT` and `USBDIR_IN`. -/
inductive Dir
  | download
  | upload
  deriving DecidableEq

/-- A transfer of the bulk-out endpoint and what has come in; no address is `rx_cmd_buf`. -/
structure Rx where
  addr : Option ℕ
  cap : ℕ
  data : List UInt8

/-- `fastboot_h` and the variables of `fastboot-cmd.c`; the transfers of the two endpoints, the
bulk-in one with its size, and the size of the last bulk-out one; and what `flash_using_part` has
been called with.  `announced` and `stored` are of the last download. -/
structure State where
  payloadPhase : Phase
  payloadDir : Dir
  paylodBuf : ℕ
  payloadReqLen : ℕ
  protReqRxSz : ℕ
  isRamdump : Bool
  downloadSize : ℕ
  downloadedDataSize : ℕ
  rx : Option Rx
  rxSz : ℕ
  tx : Option ℕ
  flashed : List (List Char × ℕ × ℕ)
  announced : ℕ
  stored : List (ℕ × UInt8)

/-- The size that `dwc3_dev_ep_set_buffer` makes of one. -/
def armed (size : ℕ) : ℕ :=
  if size % maxPacket ≠ 0 then u32 ((size / maxPacket + 1) * maxPacket) else size

/-- What the rest of the system does while a command is handled: the base address that
`debug_store_ramdump_redirection` leaves, `none` if it fails; whether the device is locked; and the
response of the handler, if it sends one. -/
structure Outcome where
  redirected : Option ℕ
  locked : Bool
  response : Option String

namespace State

/-- `ready_to_rx_cmd`. -/
def readyToRxCmd (s : State) : State :=
  { s with rx := some ⟨none, armed (if s.protReqRxSz ≠ 0 then s.protReqRxSz else 64), []⟩ }

/-- `do_payload`. -/
def doPayload (s : State) : State :=
  match s.payloadDir with
  | .download => { s with
      payloadPhase := .inProgress
      rx := some ⟨some s.paylodBuf, armed s.payloadReqLen, []⟩ }
  | .upload => { s with payloadPhase := .inProgress, tx := some s.payloadReqLen }

/-- `fastboot_send_status`. -/
def sendStatus (response : String) (s : State) : State := { s with tx := some response.length }

/-- `fb_cmd_set_downloaded_sz`. -/
def fbCmdSetDownloadedSz (sz : ℕ) (s : State) : State :=
  { s with downloadedDataSize := u32 (s.downloadedDataSize + sz) }

/-- `check_payload_done`. -/
def checkPayloadDone (xferSz : ℕ) (s : State) : State :=
  let s := s.fbCmdSetDownloadedSz xferSz
  let s := { s with
    payloadReqLen := if s.payloadReqLen < xferSz then 0 else s.payloadReqLen - xferSz }
  if s.payloadReqLen = 0 then
    let s := { s with payloadPhase := .none }
    if s.payloadDir = .download then s.sendStatus "OKAY" else s.readyToRxCmd
  else { s with paylodBuf := u64 (s.paylodBuf + xferSz) }.doPayload

/-- `tx_status_callback`; `sent` is the size of the bulk-in transfer. -/
def txStatusCallback (sent : ℕ) (s : State) : State :=
  match s.payloadPhase with
  | .none => s.readyToRxCmd
  | .startMark => s.doPayload
  | .inProgress => s.checkPayloadDone (if s.payloadDir = .download then s.rxSz else sent)

/-- `fastboot_set_payload_data`. -/
def setPayloadData (dir : Dir) (buf len : ℕ) (s : State) : State :=
  { s with
    payloadPhase := .startMark, payloadDir := dir, paylodBuf := buf, payloadReqLen := len }

/-- `fb_do_download`. -/
def fbDoDownload (cmd : List Char) (s : State) : State :=
  let size := strtol16 (cmd.drop 9)
  let s := { s with downloadSize := size, downloadedDataSize := 0, announced := size, stored := [] }
  (s.setPayloadData .download transferBuffer size).sendStatus ("DATA" ++ hex8 size)

/-- `fb_do_ramdump`. -/
def fbDoRamdump (cmd : List Char) (s : State) : State :=
  let size := strtol16 (cmd.drop 8)
  let s := { s with isRamdump := true, downloadedDataSize := 0, announced := 0, stored := [] }
  if transferBufferSize < size then
    { s with downloadSize := 0, protReqRxSz := 0 }.sendStatus
      "FAILdownload data size is bigger than buffer size"
  else { s with downloadSize := size, protReqRxSz := size }.sendStatus ("DATA" ++ hex8 size)

/-- The size of `struct fastboot_ramdump_hdr`. -/
def hdrSize (buffer : List UInt8) : ℕ := ofLe (field buffer 8 8)

/-- `start_ramdump`. -/
def startRamdump (o : Outcome) (buffer : List UInt8) (s : State) : State :=
  match o.redirected with
  | none => s
  | some base => (s.setPayloadData .upload base (u32 (hdrSize buffer))).sendStatus "OKAY"

/-- What `fb_do_flash` calls `flash_using_part` with: the key, the address and the size. -/
def flashArgs (cmd : List Char) (s : State) : List Char × ℕ × ℕ :=
  (cmd.drop 6, transferBuffer, s.downloadedDataSize)

/-- The handler of an entry of `cmd_list`; those that have nothing to do with a payload send their
response. -/
def handler (o : Outcome) (cmd : List Char) (s : State) : Command → State
  | .download => s.fbDoDownload cmd
  | .ramdump => s.fbDoRamdump cmd
  | .flash =>
    if o.locked then s.sendStatus "FAILDevice is locked"
    else { s with flashed := s.flashed ++ [s.flashArgs cmd] }.sendStatus (o.response.getD "OKAY")
  | _ => match o.response with
      | none => s
      | some response => s.sendStatus response

/-- A command as text. -/
def text (buffer : List UInt8) : List Char :=
  (buffer.takeWhile (· ≠ 0)).map fun b => Char.ofNat b.toNat

/-- `rx_handler`. -/
def rxHandler (o : Outcome) (buffer : List UInt8) (s : State) : State :=
  if s.isRamdump then { s with isRamdump := false }.startRamdump o buffer
  else
    let cmd := text buffer
    cmdList.foldl (fun s c => if c.name <+: cmd then s.handler o cmd c else s) s

/-- `wait_rx_done`, with what the transfer has brought. -/
def rxDone (o : Outcome) (data : List UInt8) (s : State) : State :=
  if s.payloadPhase = .inProgress then s.checkPayloadDone data.length
  else { s with protReqRxSz := 0 }.rxHandler o data

end State

/-- The part of a packet that there is room for. -/
def Rx.room (x : Rx) (packet : List UInt8) : List UInt8 := packet.take (x.cap - x.data.length)

/-- The transfer is done with the packet. -/
def Rx.Done (x : Rx) (packet : List UInt8) : Prop :=
  packet.length < maxPacket ∨ (x.data ++ x.room packet).length = x.cap

instance (x : Rx) (packet : List UInt8) : Decidable (x.Done packet) :=
  inferInstanceAs (Decidable (_ ∨ _))

/-- The bytes of a payload packet, each with the address it is stored at. -/
def Rx.writes (x : Rx) (packet : List UInt8) : List (ℕ × UInt8) :=
  match x.addr with
  | none => []
  | some addr =>
    (List.range' (addr + x.data.length) (x.room packet).length).zip (x.room packet)

/-- What happens on the bus: a packet comes in, or a bulk-in transfer is done. -/
inductive Event
  | packet (data : List UInt8) (o : Outcome)
  | sent

/-- A step; a packet is taken where a transfer is armed. -/
def step (s : State) : Event → Option State
  | .packet packet o =>
    s.rx.bind fun x =>
      if maxPacket < packet.length then none
      else
        let data := x.data ++ x.room packet
        let s := { s with stored := s.stored ++ x.writes packet }
        if x.Done packet then
          some ({ s with rx := none, rxSz := data.length }.rxDone o data)
        else some { s with rx := some { x with data := data } }
  | .sent => s.tx.map fun n => { s with tx := none }.txStatusCallback n

/-- After `fastboot_config`. -/
def init : State :=
  State.readyToRxCmd ⟨.none, .download, 0, 0, 0, false, 0, 0, none, 0, none, [], 0, []⟩

/-! ### What it should be -/

/-- A download has been announced and is not complete. -/
def Receiving (s : State) : Prop := s.payloadPhase ≠ .none ∧ s.payloadDir = .download

/-- Where every payload byte is stored, when the download is complete, and what `flash` uses. -/
structure Good (s : State) : Prop where
  consecutive : s.stored.map Prod.fst = List.range' transferBuffer s.stored.length
  inside : ∀ w ∈ s.stored, transferBuffer ≤ w.1 ∧ w.1 < transferBuffer + transferBufferSize
  complete : Receiving s ↔ s.stored.length < s.announced
  size : s.rx.isSome → s.payloadPhase = .none →
    ∀ cmd, s.flashArgs cmd = (cmd.drop 6, transferBuffer, s.stored.length)

/-- The size that a download announces is one that there is room for; a packet of the download
brings no more than is left of that, unless the whole packets of what is left stay in the buffer;
and no RAM is dumped. -/
def Sound (s : State) : Event → Prop
  | .sent => True
  | .packet packet o => ∀ x ∈ s.rx,
      let data := x.data ++ x.room packet
      if s.payloadPhase = .inProgress then
        x.data.length + packet.length ≤ s.payloadReqLen ∨
          s.paylodBuf + x.cap ≤ transferBuffer + transferBufferSize
      else if s.isRamdump then
        x.Done packet → o.redirected = none ∨ u32 (State.hdrSize data) = 0
      else
        x.Done packet → Command.download.name <+: State.text data →
          0 < strtol16 ((State.text data).drop 9) ∧
            strtol16 ((State.text data).drop 9) ≤ transferBufferSize

instance (s : State) : ∀ e, Decidable (Sound s e)
  | .sent => .isTrue trivial
  | .packet _ _ => inferInstanceAs (Decidable (∀ x ∈ s.rx, ite _ _ _))

section Invariant

variable {s : State}

/-- No download is in progress. -/
structure Settled (s : State) : Prop where
  size : s.downloadedDataSize = s.stored.length
  complete : s.announced ≤ s.stored.length

/-- A download is in progress, `got` bytes of it in the transfer that is armed. -/
structure Partial (s : State) (got : ℕ) : Prop where
  dir : s.payloadDir = .download
  stored : s.stored.length = s.downloadedDataSize + got
  buf : s.paylodBuf = transferBuffer + s.downloadedDataSize
  left : s.downloadedDataSize + s.payloadReqLen = s.announced
  fits : s.announced ≤ transferBufferSize

/-- The ways the two endpoints and the phase go together. -/
inductive Stage (s : State) : Prop
  | idle (hphase : s.payloadPhase = .none) (hrx : ∀ x ∈ s.rx, x.addr = none) (h : Settled s)
  | announced (hphase : s.payloadPhase = .startMark) (hrx : s.rx = none) (h : Partial s 0)
      (hpos : 0 < s.payloadReqLen)
  | receiving (hphase : s.payloadPhase = .inProgress) (htx : s.tx = none) (data : List UInt8)
      (hrx : s.rx = some ⟨some s.paylodBuf, armed s.payloadReqLen, data⟩)
      (h : Partial s data.length) (hwhole : maxPacket ∣ data.length)
      (hlt : data.length < s.payloadReqLen)
  | dumping (hphase : s.payloadPhase ≠ .none) (hdir : s.payloadDir = .upload) (hrx : s.rx = none)
      (h : Settled s) (hlen : s.payloadReqLen = 0)
      (htx : s.payloadPhase = .inProgress → ∀ n ∈ s.tx, n = 0)

/-- What holds after every step of a run whose steps are sound. -/
structure Inv (s : State) : Prop where
  consecutive : s.stored.map Prod.fst = List.range' transferBuffer s.stored.length
  inside : s.stored.length ≤ transferBufferSize
  stage : Stage s

theorem armed_spec {n : ℕ} (h : n ≤ transferBufferSize) :
    maxPacket ∣ armed n ∧ n ≤ armed n ∧ armed n < n + maxPacket := by
  have hsize : transferBufferSize = 0x30000000 := rfl
  have hmax : maxPacket = 512 := rfl
  rw [hsize] at h
  rw [armed, hmax]
  split_ifs with hmod
  · rw [u32_of_lt (by omega)]
    refine ⟨Nat.dvd_mul_left .., by omega, by omega⟩
  · refine ⟨Nat.dvd_of_mod_eq_zero (not_not.1 hmod), le_rfl, by omega⟩

theorem Inv.good (h : Inv s) : Good s := by
  have hinside : ∀ w ∈ s.stored,
      transferBuffer ≤ w.1 ∧ w.1 < transferBuffer + transferBufferSize := by
    intro w hw
    have hmem := List.mem_map_of_mem (f := Prod.fst) hw
    rw [h.consecutive, List.mem_range'_1] at hmem
    exact ⟨hmem.1, hmem.2.trans_le (Nat.add_le_add_left h.inside _)⟩
  cases h.stage with
  | idle hphase hrx hs =>
    refine ⟨h.consecutive, hinside, ?_, fun _ _ cmd => ?_⟩
    · simp [Receiving, hphase, hs.complete]
    · rw [State.flashArgs, hs.size]
  | announced hphase hrx hp hpos =>
    refine ⟨h.consecutive, hinside, ?_, fun hsome => by simp [hrx] at hsome⟩
    have hlt : s.stored.length < s.announced := by
      have := hp.stored
      have := hp.left
      omega
    simp [Receiving, hphase, hp.dir, hlt]
  | receiving hphase htx data hrx hp hwhole hlt =>
    refine ⟨h.consecutive, hinside, ?_, fun _ hnone => by simp [hphase] at hnone⟩
    have hlt : s.stored.length < s.announced := by
      have := hp.stored
      have := hp.left
      omega
    simp [Receiving, hphase, hp.dir, hlt]
  | dumping hphase hdir hrx hs hlen htx =>
    refine ⟨h.consecutive, hinside, ?_, fun hsome => by simp [hrx] at hsome⟩
    simp [Receiving, hdir, hs.complete]

/-- **A part of a download is done.**  What is left of it is armed behind it. -/
theorem Inv.checkPayloadDone {n : ℕ}
    (hcons : s.stored.map Prod.fst = List.range' transferBuffer s.stored.length)
    (hin : s.stored.length ≤ transferBufferSize) (h : Partial s n) (hrx : s.rx = none)
    (htx : s.tx = none) : Inv (s.checkPayloadDone n) := by
  have hsize : transferBufferSize = 0x30000000 := rfl
  have hbase : transferBuffer = 0x8B000000 := rfl
  obtain ⟨hdir, hstored, hbuf, hleft, hfits⟩ := h
  have hsum : u32 (s.downloadedDataSize + n) = s.downloadedDataSize + n :=
    u32_of_lt (by omega)
  have hreq : (if s.payloadReqLen < n then 0 else s.payloadReqLen - n) = s.payloadReqLen - n := by
    split_ifs <;> omega
  simp only [State.checkPayloadDone, State.fbCmdSetDownloadedSz, hsum, hreq, hdir, if_true]
  split_ifs with hdone
  · refine ⟨hcons, hin, .idle rfl (by simp [State.sendStatus, hrx]) ⟨?_, ?_⟩⟩
    · exact hstored.symm
    · show s.announced ≤ s.stored.length
      omega
  · have hnext : u64 (s.paylodBuf + n) = transferBuffer + (s.downloadedDataSize + n) := by
      rw [hbuf, u64_of_lt (by omega), Nat.add_assoc]
    rw [hnext]
    refine ⟨hcons, hin, .receiving rfl htx [] rfl ⟨rfl, hstored, rfl, ?_, hfits⟩ (by simp) ?_⟩
    · show s.downloadedDataSize + n + (s.payloadReqLen - n) = s.announced
      omega
    · exact Nat.pos_of_ne_zero hdone

/-- Nothing has been stored and nothing is expected. -/
theorem Inv.of_empty (hphase : s.payloadPhase = .none) (hrx : s.rx = none) (hstored : s.stored = [])
    (hsize : s.downloadedDataSize = 0) (hann : s.announced = 0) : Inv s := by
  refine ⟨by simp [hstored], by simp [hstored], .idle hphase (by simp [hrx]) ⟨?_, ?_⟩⟩
  · simp [hsize, hstored]
  · simp [hann]

variable {o : Outcome}

/-- A handler on a device that is idle. -/
theorem Inv.handler {cmd : List Char} (h : Inv s) (hphase : s.payloadPhase = .none)
    (hrx : s.rx = none) (hs : Settled s) {c : Command}
    (hok : c = .download → 0 < strtol16 (cmd.drop 9) ∧ strtol16 (cmd.drop 9) ≤ transferBufferSize) :
    Inv (s.handler o cmd c) := by
  have hsame : ∀ t : State, t.payloadPhase = s.payloadPhase → t.rx = s.rx → t.stored = s.stored →
      t.downloadedDataSize = s.downloadedDataSize → t.announced = s.announced → Inv t := by
    intro t hp hr hst hd ha
    refine ⟨by rw [hst]; exact h.consecutive, by rw [hst]; exact h.inside,
      .idle (hp.trans hphase) (by simp [hr, hrx]) ⟨?_, ?_⟩⟩
    · rw [hd, hst, hs.size]
    · rw [ha, hst]
      exact hs.complete
  have hother : Inv (match o.response with
      | none => s
      | some response => s.sendStatus response) := by
    cases o.response with
    | none => exact h
    | some response => exact hsame _ rfl rfl rfl rfl rfl
  cases c with
  | download =>
    obtain ⟨hpos, hle⟩ := hok rfl
    exact ⟨by rfl, Nat.zero_le _, .announced rfl hrx ⟨rfl, rfl, rfl, Nat.zero_add _, hle⟩ hpos⟩
  | ramdump =>
    rw [State.handler, State.fbDoRamdump]
    split_ifs
    · exact .of_empty hphase hrx rfl rfl rfl
    · exact .of_empty hphase hrx rfl rfl rfl
  | flash =>
    rw [State.handler]
    split_ifs
    · exact hsame _ rfl rfl rfl rfl rfl
    · exact hsame _ rfl rfl rfl rfl rfl
  | reboot | continueBoot | boot | erase | getvar | setActive | flashing | oem | diskinfo | partinfo
    | diskdump => exact hother

/-- A command that has come in on a device that is idle. -/
theorem Inv.rxHandler {data : List UInt8} (h : Inv s)
    (hphase : s.payloadPhase = .none) (hrx : s.rx = none) (hs : Settled s)
    (hdump : s.isRamdump → o.redirected = none ∨ u32 (State.hdrSize data) = 0)
    (hok : s.isRamdump = false → Command.download.name <+: State.text data →
      0 < strtol16 ((State.text data).drop 9) ∧
        strtol16 ((State.text data).drop 9) ≤ transferBufferSize) :
    Inv (s.rxHandler o data) := by
  rw [State.rxHandler]
  split_ifs with hram
  · rw [State.startRamdump]
    cases hred : o.redirected with
    | none => exact ⟨h.consecutive, h.inside, .idle hphase (by simp [hrx]) ⟨hs.size, hs.complete⟩⟩
    | some base =>
      have hzero := (hdump hram).resolve_left (by simp [hred])
      exact ⟨h.consecutive, h.inside,
        .dumping nofun rfl hrx ⟨hs.size, hs.complete⟩ hzero nofun⟩
  · rcases foldl_of_exclusive (f := fun c s => State.handler o (State.text data) s c)
      (cmdList_exclusive (State.text data)) s with hsame | ⟨c, -, hname, hone⟩
    · rw [hsame]
      exact h
    · rw [hone]
      refine h.handler hphase hrx hs fun hc => hok (by simpa using hram) ?_
      rwa [hc] at hname

theorem Rx.map_fst_writes {x : Rx} {addr : ℕ} {packet : List UInt8} (hx : x.addr = some addr) :
    (x.writes packet).map Prod.fst = List.range' (addr + x.data.length) (x.room packet).length := by
  rw [Rx.writes, hx]
  exact List.map_fst_zip (by simp)

/-- What a packet of a download leaves of the transfer, and where it is stored. -/
theorem Partial.packet {packet data : List UInt8} {x : Rx}
    (hcons : s.stored.map Prod.fst = List.range' transferBuffer s.stored.length)
    (hp : Partial s data.length) (hwhole : maxPacket ∣ data.length)
    (hlt : data.length < s.payloadReqLen) (hpacket : packet.length ≤ maxPacket)
    (hx : x = ⟨some s.paylodBuf, armed s.payloadReqLen, data⟩) :
    x.room packet = packet ∧ data.length + packet.length ≤ x.cap ∧
      (s.stored ++ x.writes packet).length = s.stored.length + packet.length ∧
      (s.stored ++ x.writes packet).map Prod.fst =
        List.range' transferBuffer (s.stored ++ x.writes packet).length := by
  have hleft := hp.left
  have hfits := hp.fits
  obtain ⟨hdvd, hle, -⟩ := armed_spec (n := s.payloadReqLen) (by omega)
  have hcap : data.length + maxPacket ≤ armed s.payloadReqLen :=
    Nat.le_of_lt_add_of_dvd (by omega) (Nat.dvd_add_self_right.2 hwhole) hdvd
  have hroom : x.room packet = packet := by
    rw [hx, Rx.room]
    exact List.take_of_length_le (by dsimp only; omega)
  have hwrites : (x.writes packet).map Prod.fst =
      List.range' (transferBuffer + s.stored.length) packet.length := by
    rw [Rx.map_fst_writes (by rw [hx]), hroom, hx, hp.buf, hp.stored, Nat.add_assoc]
  have hlen : (x.writes packet).length = packet.length := by
    simpa using congrArg List.length hwrites
  refine ⟨hroom, ?_, by rw [List.length_append, hlen], ?_⟩
  · rw [hx]
    exact (Nat.add_le_add_left hpacket _).trans hcap
  · rw [List.map_append, hcons, hwrites, List.range'_append_1, List.length_append, hlen]

variable {s' : State}

/-- **A packet of a download.** -/
theorem Inv.payload {packet data : List UInt8} (h : Inv s)
    (hphase : s.payloadPhase = .inProgress) (htx : s.tx = none)
    (hrx : s.rx = some ⟨some s.paylodBuf, armed s.payloadReqLen, data⟩)
    (hp : Partial s data.length) (hwhole : maxPacket ∣ data.length)
    (hlt : data.length < s.payloadReqLen) (hsound : Sound s (.packet packet o))
    (hstep : step s (.packet packet o) = some s') : Inv s' := by
  obtain ⟨hdir, hstored, hbuf, hleft, hfits⟩ := hp
  obtain ⟨hdvd, -, hcap⟩ := armed_spec (n := s.payloadReqLen) (by omega)
  simp only [step, hrx, Option.bind_some] at hstep
  obtain ⟨hbig, hstep⟩ := Option.ite_none_left_eq_some.1 hstep
  obtain ⟨hroom, hle, hlen, hcons⟩ := Partial.packet h.consecutive
    ⟨hdir, hstored, hbuf, hleft, hfits⟩ hwhole hlt (Nat.le_of_not_lt hbig) rfl
  have hin : s.stored.length + packet.length ≤ transferBufferSize := by
    have hs := hsound _ hrx
    simp only [hphase, if_true] at hs
    dsimp only at hle
    omega
  have hnext : s.stored.length + packet.length =
      s.downloadedDataSize + (data ++ packet).length := by
    rw [hstored, List.length_append, Nat.add_assoc]
  rw [← hlen] at hin hnext
  simp only [Rx.Done, hroom] at hstep
  split_ifs at hstep with hdone
  · cases hstep
    simp only [State.rxDone, hphase, if_true]
    exact .checkPayloadDone hcons hin ⟨hdir, hnext, hbuf, hleft, hfits⟩ rfl htx
  · cases hstep
    obtain ⟨hfull, hopen⟩ := not_or.1 hdone
    have hpacket : packet.length = maxPacket := by omega
    have hwhole' : maxPacket ∣ (data ++ packet).length := by
      rw [List.length_append, hpacket]
      exact Nat.dvd_add_self_right.2 hwhole
    have hlt' : (data ++ packet).length + maxPacket ≤ armed s.payloadReqLen := by
      refine Nat.le_of_lt_add_of_dvd ?_ (Nat.dvd_add_self_right.2 hwhole') hdvd
      have hne : (data ++ packet).length ≠ armed s.payloadReqLen := hopen
      rw [List.length_append] at hne ⊢
      dsimp only at hle
      omega
    exact ⟨hcons, hin, .receiving hphase htx _ rfl ⟨hdir, hnext, hbuf, hleft, hfits⟩ hwhole'
      (by dsimp only; omega)⟩

/-- **A packet on an idle device.** -/
theorem Inv.command {packet : List UInt8} (h : Inv s)
    (hphase : s.payloadPhase = .none) (hrx : ∀ x ∈ s.rx, x.addr = none) (hs : Settled s)
    (hsound : Sound s (.packet packet o))
    (hstep : step s (.packet packet o) = some s') : Inv s' := by
  obtain ⟨x, hx, hstep⟩ := Option.bind_eq_some_iff.1 hstep
  obtain ⟨-, hstep⟩ := Option.ite_none_left_eq_some.1 hstep
  have hwrites : x.writes packet = [] := by rw [Rx.writes, hrx x hx]
  have hcond := hsound x hx
  simp only [hphase, reduceCtorEq, if_false] at hcond
  simp only [hwrites, List.append_nil] at hstep
  split_ifs at hstep with hdone
  · cases hstep
    simp only [State.rxDone, hphase, reduceCtorEq, if_false]
    refine Inv.rxHandler
      ⟨h.consecutive, h.inside, .idle rfl (by simp) ⟨hs.size, hs.complete⟩⟩ rfl rfl
      ⟨hs.size, hs.complete⟩ (fun hram => ?_) fun hram hname => ?_
    · rw [if_pos hram] at hcond
      exact hcond hdone
    · rw [if_neg (by simpa using hram)] at hcond
      exact hcond hdone hname
  · cases hstep
    exact ⟨h.consecutive, h.inside, .idle hphase (by simp [hrx x hx]) ⟨hs.size, hs.complete⟩⟩

/-- **A transfer to the host is done.** -/
theorem Inv.sent (h : Inv s) (hstep : step s .sent = some s') : Inv s' := by
  obtain ⟨n, hn, rfl⟩ := Option.map_eq_some_iff.1 hstep
  cases h.stage with
  | idle hphase hrx hs =>
    simp only [State.txStatusCallback, hphase]
    exact ⟨h.consecutive, h.inside,
      .idle rfl (by simp [State.readyToRxCmd]) ⟨hs.size, hs.complete⟩⟩
  | announced hphase hrx hp hpos =>
    simp only [State.txStatusCallback, hphase, State.doPayload, hp.dir]
    exact ⟨h.consecutive, h.inside,
      .receiving rfl rfl [] rfl ⟨rfl, hp.stored, hp.buf, hp.left, hp.fits⟩ (by simp) hpos⟩
  | receiving hphase htx data hrx hp hwhole hlt => simp [htx] at hn
  | dumping hphase hdir hrx hs hlen htx =>
    cases hstage : s.payloadPhase with
    | none => exact absurd hstage hphase
    | startMark =>
      simp only [State.txStatusCallback, State.doPayload, hdir]
      exact ⟨h.consecutive, h.inside,
        .dumping nofun rfl hrx ⟨hs.size, hs.complete⟩ hlen
          fun _ n hn => by simpa [hlen] using hn.symm⟩
    | inProgress =>
      obtain rfl := htx hstage n hn
      have hsum : u32 (s.downloadedDataSize + 0) = s.downloadedDataSize := by
        have := h.inside
        have hsize : transferBufferSize = 0x30000000 := rfl
        rw [Nat.add_zero, u32_of_lt (by rw [hs.size]; omega)]
      simp only [State.txStatusCallback, hdir, State.checkPayloadDone,
        State.fbCmdSetDownloadedSz, hsum, hlen, reduceCtorEq, if_false, Nat.not_lt_zero, if_true]
      exact ⟨h.consecutive, h.inside,
        .idle rfl (by simp [State.readyToRxCmd]) ⟨hs.size, hs.complete⟩⟩

/-- **What a sound step preserves.** -/
theorem Inv.step {e : Event} (h : Inv s) (hsound : Sound s e)
    (hstep : step s e = some s') : Inv s' := by
  cases e with
  | sent => exact h.sent hstep
  | packet packet o =>
    cases h.stage with
    | idle hphase hrx hs => exact h.command hphase hrx hs hsound hstep
    | announced hphase hrx hp hpos => simp [FastbootPayload.step, hrx] at hstep
    | receiving hphase htx data hrx hp hwhole hlt =>
      exact h.payload hphase htx hrx hp hwhole hlt hsound hstep
    | dumping hphase hdir hrx hs hlen htx => simp [FastbootPayload.step, hrx] at hstep

end Invariant

theorem init_inv : Inv init :=
  ⟨rfl, Nat.zero_le _, .idle rfl (by simp [init, State.readyToRxCmd]) ⟨rfl, le_rfl⟩⟩

/-- The bytes of a text. -/
def bytes (s : String) : List UInt8 := s.toList.map fun c => UInt8.ofNat c.toNat

/-- Nothing of the rest of the system. -/
def quiet : Outcome := ⟨none, false, none⟩

/-- Three bytes in two packets, and where they go. -/
def three : List Event :=
  [.packet (bytes "download:00000003") quiet, .sent, .packet [1, 2] quiet, .packet [3] quiet, .sent,
    .packet (bytes "flash:boot") quiet]

/-- More is announced than there is room for, and the response is on its way. -/
def oversized : List Event := [.packet (bytes "download:30000400") quiet, .sent]

/-- A whole packet of zeros. -/
def whole : Event := .packet (List.replicate maxPacket 0) quiet

/-- Whole packets that do not fill the transfer are stored one behind the other. -/
theorem run_whole {addr : ℕ} : ∀ (k : ℕ) (s : State) (x : Rx), s.rx = some x →
    x.addr = some addr → x.data.length + maxPacket * k < x.cap →
      ∃ s', run step s (List.replicate k whole) = some s' ∧
        s'.stored.length = s.stored.length + maxPacket * k
  | 0, s, _, _, _, _ => ⟨s, rfl, rfl⟩
  | k + 1, s, x, hrx, hx, hlt => by
      have hroom : x.room (List.replicate maxPacket 0) = List.replicate maxPacket 0 :=
        List.take_of_length_le (by rw [List.length_replicate]; rw [Nat.mul_succ] at hlt; omega)
      have hopen : ¬x.Done (List.replicate maxPacket 0) := by
        rw [Rx.Done, hroom, List.length_append, List.length_replicate]
        rw [Nat.mul_succ] at hlt
        omega
      have hlen : (x.writes (List.replicate maxPacket 0)).length = maxPacket := by
        simp [Rx.writes, hx, hroom]
      have hstep : step s whole = some { s with
          stored := s.stored ++ x.writes (List.replicate maxPacket 0)
          rx := some { x with data := x.data ++ List.replicate maxPacket 0 } } := by
        simp only [step, whole, hrx, Option.bind_some, hroom, if_neg hopen]
        rw [if_neg (by simp)]
      have hlt' : (x.data ++ List.replicate maxPacket 0).length + maxPacket * k < x.cap := by
        rw [List.length_append, List.length_replicate]
        rw [Nat.mul_succ] at hlt
        omega
      obtain ⟨s', hrun, hstored⟩ := run_whole k { s with
          stored := s.stored ++ x.writes (List.replicate maxPacket 0)
          rx := some { x with data := x.data ++ List.replicate maxPacket 0 } } _ rfl hx hlt'
      refine ⟨s', run_cons_eq_some.2 ⟨_, hstep, hrun⟩, ?_⟩
      rw [hstored, List.length_append, hlen, Nat.mul_succ]
      omega

end FastbootPayload
end LittleKernel
