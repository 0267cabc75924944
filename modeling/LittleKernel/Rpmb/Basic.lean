/-
# The boot tables in the replay protected partition

`dev/rpmb/rpmb.c` as built for UFS: `ufs_rpmb_commands` (cases 2, 3 and 4),
`rpmb_read_block`, `rpmb_write_block`, `rpmb_init_table`, `rpmb_ri_check_magic`,
`rpmb_load_boot_table` and the calls of `dev/rpmb.h` that read and change the
rollback indexes, the persistent values and the lock state.

Block `b` of the boot partition is block `512 + b` of the device:

| blocks | bytes | held in |
| --- | --- | --- |
| 0 | `boot_header` (12), reserved, `lock` (4) | `bootHeader`, `lock_state` |
| 1, 2 | 64 × `uint64_t` | `rollbackIndex` |
| 5, 6 | 4 × (`key` 56, `len` 4, `resv` 4, `value` 64) | `persistentData` |

`swap_packet` reverses the 512 bytes of a frame, so a frame on the wire is named
here by the packet it swaps to.  What the secure monitor, the random number
generator and the device answer are inputs: a device answers a request as it
likes, and whether it carries out a write is its choice unless its response
says so.  Printing and the `stuff` bytes of a packet, which no one reads, are
left out.
-/

import LittleKernel.Lib.Fields
import Mathlib.Logic.Function.Basic

namespace LittleKernel
namespace Rpmb

open Memory Bytes

/-! ### The secure monitor -/

def rvSuccess : UInt32 := 0
/-- `-1` as it is returned. -/
def rvFail : UInt32 := 0xFFFFFFFF
def rvSyncAesBusy : UInt32 := 0x20000
def rvRpmbInvalidParam : UInt32 := 0x40202
def rvRpmbParamNullPointer : UInt32 := 0x40203
def rvRpmbInvalidKeyLen : UInt32 := 0x40204
def rvRpmbRiTableNotInitialized : UInt32 := 0x40300
def rvRpmbInvalidRollbackIndex : UInt32 := 0x40301
def rvRpmbPersistNameNotFound : UInt32 := 0x40302
def rvRpmbInvalidPersistDataSize : UInt32 := 0x40303
def rvRpmbAuthenKeyNotProvisioned : UInt32 := 0x40304
def rvBootRpmbExceedSmcRetryCnt : UInt32 := 0x80100

/-- The answer of the random number generator: a code and two registers. -/
structure Random where
  code : UInt64
  r1 : UInt64
  r2 : UInt64

/-- `cm_get_random` of 16 bytes into the zeroed `nonce`.  Its 64-bit code is kept as an
`int`. -/
def cmGetRandom (r : Random) : UInt32 × (ℕ → UInt8) :=
  if r.code ≠ 0 then (r.code.toUInt32, fun _ => 0)
  else (rvSuccess, store (fun _ => 0) 0 (le 8 r.r1.toNat ++ le 8 r.r2.toNat))

/-- The answers to the calls for an HMAC, attempt by attempt: a code and the output
buffer. -/
abbrev Smc := ℕ → List UInt8 → UInt32 × (ℕ → UInt8)

/-- The loop of `get_RPMB_hmac`: `n` attempts are left, `k` is the next one. -/
def hmacRetry (smc : Smc) (input : List UInt8) :
    ℕ → ℕ → (ℕ → UInt8) → UInt32 × (ℕ → UInt8)
  | 0, _, out => (rvBootRpmbExceedSmcRetryCnt, out)
  | n + 1, k, _ =>
    if (smc k input).1 = rvSyncAesBusy then hmacRetry smc input n (k + 1) (smc k input).2
    else smc k input

/-- `get_RPMB_hmac` into a zeroed buffer. -/
def getRpmbHmac (smc : Smc) (input : List UInt8) : UInt32 × (ℕ → UInt8) :=
  hmacRetry smc input 0x5000 0 fun _ => 0

/-! ### Frames -/

/-- `struct rpmb_packet`. -/
structure Packet where
  request : UInt16 := 0
  result : UInt16 := 0
  count : UInt16 := 0
  address : UInt16 := 0
  writeCounter : UInt32 := 0
  nonce : ℕ → UInt8 := fun _ => 0
  data : ℕ → UInt8 := fun _ => 0
  keyMac : ℕ → UInt8 := fun _ => 0

/-- The bytes of the frame from `DATA_START_BYTE` on, which the MAC covers. -/
def Packet.macInput (p : Packet) : List UInt8 :=
  (le 2 p.request.toNat ++ le 2 p.result.toNat ++ le 2 p.count.toNat ++ le 2 p.address.toNat ++
    le 4 p.writeCounter.toNat ++ window p.nonce 0 16 ++ window p.data 0 256).reverse

/-- The bytes of the frame from `HMAC_START_BYTE` on. -/
def Packet.wireMac (p : Packet) : List UInt8 := (window p.keyMac 0 32).reverse

/-- What becomes of a request for a frame: `bio_open` finds no device, `new_write` or
`new_read` transfers nothing, or a frame comes back. -/
inductive Transport
  | noDevice
  | requestFails
  | readFails
  | response (p : Packet)

/-- The surroundings of one turn of the loop of `rpmb_read_block`. -/
structure ReadEnv where
  random : Random
  device : Packet → Transport
  smc : Smc

/-- What case 4 of `ufs_rpmb_commands` leaves: its code, the packet, the bytes copied to
the caller's buffer and the outcome of the HMAC comparison, which is only printed. -/
structure ReadReply where
  ret : UInt32
  packet : Packet
  data : Option (ℕ → UInt8)
  compareFails : Bool

/-- `ufs_rpmb_commands`, case 4: authenticated data read request. -/
def ufsRpmbRead (e : ReadEnv) (packet : Packet) : ReadReply :=
  match e.device packet with
  | .response p =>
    { ret := (getRpmbHmac e.smc p.macInput).1
      packet := p
      data := some p.data
      compareFails := window (getRpmbHmac e.smc p.macInput).2 0 32 ≠ p.wireMac }
  | _ => { ret := rvFail, packet := packet, data := none, compareFails := false }

/-- The request that `rpmb_read_block` sends. -/
def readRequest (nonce : ℕ → UInt8) (addr : ℕ) : Packet :=
  { request := 0x04, count := 1, address := UInt16.ofNat addr, nonce := nonce }

/-- One turn of the loop of `rpmb_read_block`: the code, and the bytes that were copied
out. -/
def readOne (e : ReadEnv) (addr : ℕ) : UInt32 × Option (ℕ → UInt8) :=
  let nonce := (cmGetRandom e.random).2
  if (cmGetRandom e.random).1 ≠ rvSuccess then ((cmGetRandom e.random).1, none)
  else
    let r := ufsRpmbRead e (readRequest nonce addr)
    if window r.packet.nonce 0 16 ≠ window nonce 0 16 then (rvFail, r.data) else (r.ret, r.data)

/-- The bytes `d`, if there are any, copied to a buffer. -/
def copyOut (buf : ℕ → UInt8) (off : ℕ) : Option (ℕ → UInt8) → ℕ → UInt8
  | some d => copy buf off d 0 256
  | none => buf

/-- The loop of `rpmb_read_block` from block `k` on, `n` blocks left. -/
def readBlocks (env : ℕ → ReadEnv) (addr off : ℕ) :
    ℕ → ℕ → (ℕ → UInt8) → UInt32 × (ℕ → UInt8)
  | 0, _, buf => (rvSuccess, buf)
  | n + 1, k, buf =>
    let r := readOne (env k) (addr + k)
    let buf' := copyOut buf (off + 256 * k) r.2
    if r.1 ≠ rvSuccess then (r.1, buf') else readBlocks env addr off n (k + 1) buf'

/-- `rpmb_read_block(addr, blkcnt, buf + off)`. -/
def rpmbReadBlock (env : ℕ → ReadEnv) (addr blkcnt : ℕ) (buf : ℕ → UInt8) (off : ℕ) :
    UInt32 × (ℕ → UInt8) :=
  readBlocks env addr off blkcnt 0 buf

/-! ### Writing -/

/-- What becomes of a write: no device, the write, the request for its result or the
reading of the result fails, or a result comes back.  A device whose result does not
come back may have carried out the write or not. -/
inductive WriteReply
  | noDevice
  | writeFails (applied : Bool)
  | requestFails (applied : Bool)
  | readFails (applied : Bool)
  | response (p : Packet)

/-- The contents of the device, block by block. -/
abbrev Device := ℕ → ℕ → UInt8

/-- The device carried out the write. -/
def WriteReply.applied : WriteReply → Bool
  | .noDevice => false
  | .writeFails b => b
  | .requestFails b => b
  | .readFails b => b
  | .response p => p.result = 0

/-- The surroundings of one data frame that is written. -/
structure FrameEnv where
  smc : Smc
  reply : Packet → WriteReply

/-- The surroundings of a call of `rpmb_write_block`. -/
structure WriteEnv where
  random : Random
  counter : Packet → Transport
  frame : ℕ → FrameEnv

/-- `ufs_rpmb_commands`, case 2: reading of the write counter. -/
def ufsRpmbCounter (counter : Packet → Transport) (packet : Packet) : UInt32 × Packet :=
  match counter packet with
  | .response p => (rvSuccess, p)
  | _ => (rvFail, packet)

/-- `ufs_rpmb_commands`, case 3: authenticated data write request.  The frame is sent with
whatever HMAC there is, and the result code of the response is left in the packet. -/
def ufsRpmbWrite (e : FrameEnv) (dev : Device) (packet : Packet) : UInt32 × Device :=
  let hmac := getRpmbHmac e.smc packet.macInput
  let reply := e.reply { packet with keyMac := fun i => hmac.2 (31 - i) }
  let addr := packet.address.toNat
  let dev' := if reply.applied
    then Function.update dev addr (copy (dev addr) 0 packet.data 0 256) else dev
  match reply with
  | .response _ => (hmac.1, dev')
  | _ => (rvFail, dev')

/-- The packet of the block `k` that `rpmb_write_block` writes. -/
def writeRequest (wc : UInt32) (addr off k : ℕ) (buf : ℕ → UInt8) : Packet :=
  { request := 0x03, count := 1, writeCounter := wc + UInt32.ofNat k,
    address := UInt16.ofNat (addr + k), data := fun i => buf (off + 256 * k + i) }

/-- The loop of `rpmb_write_block` from block `k` on, `n` blocks left. -/
def writeBlocks (env : ℕ → FrameEnv) (wc : UInt32) (addr : ℕ) (buf : ℕ → UInt8) (off : ℕ) :
    ℕ → ℕ → Device → UInt32 × Device
  | 0, _, dev => (rvSuccess, dev)
  | n + 1, k, dev =>
    let r := ufsRpmbWrite (env k) dev (writeRequest wc addr off k buf)
    if r.1 ≠ rvSuccess then r else writeBlocks env wc addr buf off n (k + 1) r.2

/-- `rpmb_write_block(addr, blkcnt, buf + off)`. -/
def rpmbWriteBlock (env : WriteEnv) (dev : Device) (addr blkcnt : ℕ) (buf : ℕ → UInt8)
    (off : ℕ) : UInt32 × Device :=
  let nonce := (cmGetRandom env.random).2
  if (cmGetRandom env.random).1 ≠ rvSuccess then ((cmGetRandom env.random).1, dev)
  else
    let r := ufsRpmbCounter env.counter { request := 0x02, nonce := nonce }
    if window r.2.nonce 0 16 ≠ window nonce 0 16 then (rvFail, dev)
    else if r.1 ≠ rvSuccess then (r.1, dev)
    else writeBlocks env.frame r.2.writeCounter addr buf off blkcnt 0 dev

/-! ### The tables -/

/-- `RPMB_BLOCK_PER_PARTITION * (BOOT_RI_PARTITION - 1)`. -/
def addrBase : ℕ := 512 * (2 - 1)
def bootMagic : ℕ := 0x424F4F54
def bootRiTableBlock : ℕ := 1
def bootRiTableBlockCnt : ℕ := 2
def bootRiTableSize : ℕ := 64
def persistDataBlock : ℕ := 5
def persistDataBlockCnt : ℕ := 2
def persistDataCnt : ℕ := 4
def persistKeyLen : ℕ := 56
def persistValueLen : ℕ := 64
/-- `RPMB_AUTHEN_KEY_NOT_PROVISIONED`. -/
def keyNotProvisioned : UInt32 := 0x700

/-- The variables of `rpmb.c`. -/
structure Mem where
  provisionState : UInt32
  tableInitState : UInt32
  lockState : ℕ
  bootHeader : ℕ → UInt8
  rollbackIndex : ℕ → UInt8
  persistentData : ℕ → UInt8

/-- The variables and the device. -/
structure State where
  mem : Mem
  dev : Device

/-- The header block of `rpmb_init_table`. -/
def initHeader : ℕ → UInt8 :=
  store32 (store32 (store32 (store32 (fun _ => 0) 0 bootMagic) 4 bootRiTableBlock) 8
    bootRiTableBlockCnt) 252 1

/-- The two loops of `rpmb_init_table` that write zeros, `n` turns left. -/
def zeroBlocks (env : ℕ → WriteEnv) : ℕ → ℕ → ℕ → Device → UInt32 × Device
  | 0, _, _, dev => (rvSuccess, dev)
  | n + 1, i, addr, dev =>
    let r := rpmbWriteBlock (env i) dev (addr + i) 1 (fun _ => 0) 0
    if r.1 ≠ rvSuccess then r else zeroBlocks env n (i + 1) (addr + i) r.2

/-- `rpmb_init_table`.  The surroundings are those of the header, of the two index blocks
and of the two data blocks. -/
def rpmbInitTable (env : ℕ → WriteEnv) (s : State) : UInt32 × State :=
  let m := { s.mem with lockState := 1 }
  let r := rpmbWriteBlock (env 0) s.dev addrBase 1 initHeader 0
  if r.1 ≠ rvSuccess then (r.1, ⟨m, r.2⟩)
  else
    let m := { m with bootHeader := copy m.bootHeader 0 initHeader 0 12 }
    let r := zeroBlocks (fun i => env (1 + i)) bootRiTableBlockCnt 0 (addrBase + bootRiTableBlock) r.2
    if r.1 ≠ rvSuccess then (r.1, ⟨m, r.2⟩)
    else
      let r := zeroBlocks (fun i => env (3 + i)) persistDataBlockCnt 0
        (addrBase + persistDataBlock) r.2
      (r.1, ⟨m, r.2⟩)

/-- The surroundings of `rpmb_load_boot_table`. -/
structure LoadEnv where
  header : ReadEnv
  init : ℕ → WriteEnv
  ri : ℕ → ReadEnv
  persist : ℕ → ReadEnv

/-- `rpmb_ri_check_magic`. -/
def rpmbRiCheckMagic (env : LoadEnv) (s : State) : UInt32 × State :=
  let r := rpmbReadBlock (fun _ => env.header) addrBase 1 (fun _ => 0) 0
  let buf := r.2
  if r.1 ≠ rvSuccess then (r.1, s)
  else if load32 buf 0 ≠ bootMagic then
    let r := rpmbInitTable env.init s
    if r.1 ≠ rvSuccess then r
    else (rvSuccess, { r.2 with mem := { r.2.mem with tableInitState := 1 } })
  else
    (rvSuccess, { s with mem := { s.mem with
      bootHeader := copy s.mem.bootHeader 0 buf 0 12, lockState := load32 buf 252, tableInitState := 1 } })

/-- The loops of `rpmb_load_rollback_index` and `rpmb_load_persistent_data`, which read the
blocks from `addr` on straight into a table. -/
def loadTable (env : ℕ → ReadEnv) (addr : ℕ) :
    ℕ → ℕ → (ℕ → UInt8) → UInt32 × (ℕ → UInt8)
  | 0, _, table => (rvSuccess, table)
  | n + 1, i, table =>
    let r := rpmbReadBlock (fun _ => env i) (addr + i) 1 table (256 * i)
    if r.1 ≠ rvSuccess then r else loadTable env addr n (i + 1) r.2

/-- `rpmb_load_rollback_index`. -/
def rpmbLoadRollbackIndex (env : LoadEnv) (s : State) : UInt32 × State :=
  let r := loadTable env.ri (addrBase + bootRiTableBlock) bootRiTableBlockCnt 0
    s.mem.rollbackIndex
  let m := { s.mem with rollbackIndex := r.2 }
  if r.1 ≠ rvSuccess then (r.1, { s with mem := { m with tableInitState := 0 } })
  else (rvSuccess, { s with mem := m })

/-- `rpmb_load_persistent_data`. -/
def rpmbLoadPersistentData (env : LoadEnv) (s : State) : UInt32 × State :=
  let r := loadTable env.persist (addrBase + persistDataBlock) persistDataBlockCnt 0
    s.mem.persistentData
  let m := { s.mem with persistentData := r.2 }
  if r.1 ≠ rvSuccess then (r.1, { s with mem := { m with tableInitState := 0 } })
  else (rvSuccess, { s with mem := m })

/-- The state with `table_init_state` cleared. -/
def State.uninit (s : State) : State := { s with mem := { s.mem with tableInitState := 0 } }

/-- `rpmb_load_boot_table`. -/
def rpmbLoadBootTable (env : LoadEnv) (s : State) : UInt32 × State :=
  if s.mem.provisionState = keyNotProvisioned then (rvRpmbAuthenKeyNotProvisioned, s)
  else
    let r := rpmbRiCheckMagic env s
    if r.1 ≠ rvSuccess then (r.1, r.2.uninit)
    else
      let r := rpmbLoadRollbackIndex env r.2
      if r.1 ≠ rvSuccess then (r.1, r.2.uninit)
      else
        let r := rpmbLoadPersistentData env r.2
        if r.1 ≠ rvSuccess then (r.1, r.2.uninit) else (rvSuccess, r.2)

/-! ### The calls -/

/-- What a call returns: its code, the number and the bytes it stores for its caller. -/
structure Reply where
  code : UInt32
  value : Option ℕ := none
  data : List UInt8 := []
  deriving DecidableEq

/-- `rpmb_get_rollback_index`; `out` says that the pointer is not `NULL`. -/
def rpmbGetRollbackIndex (m : Mem) (loc : ℕ) (out : Bool) : Reply :=
  if m.provisionState = keyNotProvisioned then { code := rvRpmbAuthenKeyNotProvisioned }
  else if !out then { code := rvRpmbParamNullPointer }
  else if bootRiTableSize ≤ loc then { code := rvRpmbInvalidRollbackIndex }
  else if m.tableInitState = 0 then { code := rvRpmbRiTableNotInitialized }
  else { code := rvSuccess, value := some (load64 m.rollbackIndex (8 * loc)) }

/-- `rpmb_update_table_block`. -/
def rpmbUpdateTableBlock (env : WriteEnv) (s : State) (block : ℕ) (buf : ℕ → UInt8) (off : ℕ) :
    UInt32 × State :=
  if s.mem.tableInitState = 0 then (rvRpmbRiTableNotInitialized, s)
  else
    let r := rpmbWriteBlock env s.dev (addrBase + block) 1 buf off
    (r.1, { s with dev := r.2 })

/-- `rpmb_set_rollback_index`: the table is changed before the block is written. -/
def rpmbSetRollbackIndex (env : WriteEnv) (s : State) (loc : ℕ) (v : UInt64) : UInt32 × State :=
  if s.mem.provisionState = keyNotProvisioned then (rvRpmbAuthenKeyNotProvisioned, s)
  else if bootRiTableSize ≤ loc then (rvRpmbInvalidRollbackIndex, s)
  else if s.mem.tableInitState = 0 then (rvRpmbRiTableNotInitialized, s)
  else
    let table := store64 s.mem.rollbackIndex (8 * loc) v.toNat
    rpmbUpdateTableBlock env { s with mem := { s.mem with rollbackIndex := table } }
      (bootRiTableBlock + loc / 32) table (256 * (loc / 32))

/-- `strcmp(name, key) == 0` for the entry `i` of `persistentData`. -/
def keyIs (table : ℕ → UInt8) (name : CString) (i : ℕ) : Bool :=
  window table (128 * i) (name.bytes.length + 1) = name.bytes ++ [0]

/-- `rpmb_search_persistent_key`. -/
def rpmbSearchPersistentKey (table : ℕ → UInt8) (name : CString) : Option ℕ :=
  (List.range persistDataCnt).find? (keyIs table name)

/-- `rpmb_get_empty_persistent_data`. -/
def rpmbGetEmptyPersistentData (table : ℕ → UInt8) : Option ℕ :=
  (List.range persistDataCnt).find? fun i => table (128 * i) = 0

/-- `persistentData[i].len`. -/
def persistLen (table : ℕ → UInt8) (i : ℕ) : ℕ := load32 table (128 * i + 56)

/-- `rpmb_read_persistent_value`; `outBuffer` and `outNum` say that the pointers are not
`NULL`.  It does not look at `table_init_state`. -/
def rpmbReadPersistentValue (m : Mem) (name : Option CString) (bufferSize : ℕ)
    (outBuffer outNum : Bool) : Reply :=
  if m.provisionState = keyNotProvisioned then { code := rvRpmbAuthenKeyNotProvisioned }
  else
    match name with
    | none => { code := rvRpmbParamNullPointer }
    | some name =>
      if persistValueLen < bufferSize then { code := rvRpmbInvalidParam }
      else if !outBuffer || !outNum then { code := rvRpmbParamNullPointer }
      else
        match rpmbSearchPersistentKey m.persistentData name with
        | none => { code := rvRpmbPersistNameNotFound }
        | some i =>
          let len := persistLen m.persistentData i
          if bufferSize < len then { code := rvRpmbInvalidPersistDataSize, value := some len }
          else
            { code := rvSuccess, value := some len
              data := window m.persistentData (128 * i + 64) len }

/-- The entry `i` as `rpmb_write_persistent_value` fills it: `strncpy` of the key, which
leaves its last byte alone, the length and the value. -/
def setEntry (table : ℕ → UInt8) (i : ℕ) (name : CString) (size : ℕ) (value : ℕ → UInt8) :
    ℕ → UInt8 :=
  copy (store32 (store table (128 * i) (name.padded (persistKeyLen - 1))) (128 * i + 56) size)
    (128 * i + 64) value 0 size

/-- The entry that `rpmb_write_persistent_value` takes for a name. -/
def entryFor (table : ℕ → UInt8) (name : CString) : Option ℕ :=
  (rpmbSearchPersistentKey table name).or (rpmbGetEmptyPersistentData table)

/-- `rpmb_write_persistent_value`. -/
def rpmbWritePersistentValue (env : WriteEnv) (s : State) (name : Option CString) (size : ℕ)
    (value : Option (ℕ → UInt8)) : UInt32 × State :=
  if s.mem.provisionState = keyNotProvisioned then (rvRpmbAuthenKeyNotProvisioned, s)
  else if s.mem.tableInitState = 0 then (rvRpmbRiTableNotInitialized, s)
  else
    match name, value with
    | none, _ => (rvRpmbParamNullPointer, s)
    | _, none => (rvRpmbParamNullPointer, s)
    | some name, some value =>
      if size = 0 then (rvRpmbInvalidParam, s)
      else
        match entryFor s.mem.persistentData name with
        | none => (rvRpmbPersistNameNotFound, s)
        | some i =>
          if persistKeyLen ≤ name.bytes.length then (rvRpmbInvalidKeyLen, s)
          else if persistValueLen < size then (rvRpmbInvalidPersistDataSize, s)
          else
            let table := setEntry s.mem.persistentData i name size value
            rpmbUpdateTableBlock env
              { s with mem := { s.mem with persistentData := table } }
              (persistDataBlock + i / 2) table (256 * (i / 2))

/-- `rpmb_get_lock_state`. -/
def rpmbGetLockState (m : Mem) : Reply :=
  if m.provisionState = keyNotProvisioned then { code := rvRpmbAuthenKeyNotProvisioned }
  else if m.tableInitState = 0 then { code := rvRpmbRiTableNotInitialized }
  else { code := rvSuccess, value := some m.lockState }

/-- The header block of `rpmb_set_lock_state`, in a buffer that held `buf`. -/
def lockHeader (m : Mem) (buf : ℕ → UInt8) (lock : ℕ) : ℕ → UInt8 :=
  store32 (copy buf 0 m.bootHeader 0 12) 252 lock

/-- `rpmb_set_lock_state`; `buf` is what the uninitialised buffer on the stack holds. -/
def rpmbSetLockState (env : WriteEnv) (s : State) (state : UInt32) (buf : ℕ → UInt8) :
    UInt32 × State :=
  if s.mem.provisionState = keyNotProvisioned then (rvRpmbAuthenKeyNotProvisioned, s)
  else
    let state := if state ≠ 0 then 1 else 0
    rpmbUpdateTableBlock env { s with mem := { s.mem with lockState := state } } 0
      (lockHeader s.mem buf state) 0

end Rpmb
end LittleKernel
