/-
# System parameters: `lib/sysparam/sysparam.c`

Parameters are names with data, kept in a list in memory and in an area of a block
device.  On the device a parameter is a header of sixteen bytes, the name and the
data, each padded with zeros to a multiple of four:

| bytes | field |
| ---: | --- |
| 4 | `magic` |
| 4 | `crc32` of all that follows |
| 4 | `flags` |
| 2 | `namelen` |
| 2 | `datalen` |

`sysparam_write` puts the whole list into a buffer and the buffer on the device,
and `sysparam_scan` finds the parameters again (`scanLoop_image`): the checksum,
computed in four pieces by the one and in one piece by the other, is the same.

What a successful `sysparam_write` leaves behind is read back by `sysparam_reload`
(`sysparam_persists`) as long as lengths fit their 16-bit fields and `bio_write`
writes: its result is not looked at (`failed_write_succeeds`).

What the heap and the devices answer is part of a call.  `none` is a
`DEBUG_ASSERT`, and `.ok` stands for a status that is not negative, since
`sysparam_scan` returns the length it has read.
-/

import LittleKernel.Cksum
import LittleKernel.Include
import LittleKernel.Lib.Fields
import LittleKernel.Lib.Keyed
import LittleKernel.Lib.Machine

namespace LittleKernel
namespace Sysparam

open Bytes Memory Word

/-! ### The on-disk format -/

/-- `SYSPARAM_MAGIC`, the characters `SYSP`. -/
def sysparamMagic : ℕ := 0x53595350

/-- `ROUNDUP`. -/
def roundup (a b : ℕ) : ℕ := (a + (b - 1)) / b * b

/-- `struct sysparam`; the length of `data` is `datalen`. -/
structure Param where
  flags : UInt32
  name : CString
  data : List UInt8
  deriving DecidableEq

/-- `sysparam_is_locked`: `SYSPARAM_FLAG_LOCK` is the lowest bit. -/
def Param.isLocked (p : Param) : Bool := p.flags &&& 1 ≠ 0

/-- A `uint16_t` in memory. -/
def load16 (m : ℕ → UInt8) (a : ℕ) : ℕ := ofLe (window m a 2)

/-- `sysparam_len` of the header at `sp`. -/
def sysparamLen (m : ℕ → UInt8) (sp : ℕ) : ℕ :=
  16 + roundup (load16 m (sp + 12)) 4 + roundup (load16 m (sp + 14)) 4

/-- `sysparam_crc32`. -/
def sysparamCrc32 (m : ℕ → UInt8) (sp : ℕ) : UInt32 :=
  Cksum.crc32 0 (window m (sp + 8) (sysparamLen m sp - 8))

/-- `sysparam_read_phys`: what `sysparam_create` copies, the name up to a NUL. -/
def sysparamReadPhys (m : ℕ → UInt8) (sp : ℕ) : Param where
  flags := UInt32.ofNat (load32 m (sp + 8))
  name := CString.ofBytes (window m (sp + 16) (load16 m (sp + 12)))
  data := window m (sp + 16 + roundup (load16 m (sp + 12)) 4) (load16 m (sp + 14))

/-- The checksum `sysparam_write` computes, piece by piece. -/
def Param.crc (p : Param) : UInt32 :=
  let strlen := p.name.bytes.length
  let sum := Cksum.crc32 0 (le 4 p.flags.toNat ++ le 2 strlen ++ le 2 p.data.length)
  let sum := Cksum.crc32 sum p.name.bytes
  let sum := if strlen % 4 ≠ 0 then Cksum.crc32 sum (List.replicate (4 - strlen % 4) 0) else sum
  Cksum.crc32 sum (p.data ++ List.replicate (roundup p.data.length 4 - p.data.length) 0)

/-- `struct sysparam_phys` as `sysparam_write` fills it out. -/
def Param.phys (p : Param) : List UInt8 :=
  le 4 sysparamMagic ++ le 4 p.crc.toNat ++ le 4 p.flags.toNat ++ le 2 p.name.bytes.length ++
    le 2 p.data.length

/-- The loop of `sysparam_write` that serializes the parameters. -/
def writeLoop : List Param → (ℕ → UInt8) → ℕ → (ℕ → UInt8)
  | [], buf, _ => buf
  | p :: ps, buf, pos =>
    let buf := store buf pos p.phys
    let pos := pos + 16
    let buf := store buf pos p.name.bytes
    let pos := pos + roundup p.name.bytes.length 2
    let pos := if pos % 4 ≠ 0 then pos + 2 else pos
    let buf := store buf pos p.data
    writeLoop ps buf (pos + roundup p.data.length 4)

/-- `total_len` of `sysparam_write`. -/
def totalLen (list : List Param) : ℕ :=
  (list.map fun p => 16 + roundup p.name.bytes.length 4 + roundup p.data.length 4).sum

/-- The loop of `sysparam_scan` over the buffer `m`, of which `len` bytes were read from
`offset`; `mallocOk` says whether the parameter at a position finds memory.  The result
are the parameters found and whether memory was found for all.  Each turn moves `pos`,
so the first argument counts the turns left. -/
def scanLoop (m : ℕ → UInt8) (offset len : ℕ) (mallocOk : ℕ → Bool) : ℕ → ℕ → List Param × Bool
  | 0, _ => ([], true)
  | turns + 1, pos =>
    if pos < len then
      if load32 m pos ≠ sysparamMagic then scanLoop m offset len mallocOk turns (pos + 4)
      else
        let splen := sysparamLen m pos
        if offset + len < pos + splen then ([], true)
        else if load32 m (pos + 4) ≠ (sysparamCrc32 m pos).toNat then
          scanLoop m offset len mallocOk turns (pos + splen)
        else if mallocOk pos = false then ([], false)
        else
          let r := scanLoop m offset len mallocOk turns (pos + splen)
          (sysparamReadPhys m pos :: r.1, r.2)
    else ([], true)

/-! ### The calls -/

inductive Status
  | ok
  | invalidArgs
  | noMemory
  | io
  | alreadyExists
  | notFound
  | notAllowed
  deriving DecidableEq

/-- The block devices there are: `total_size` and `block_size`. -/
structure Geometry where
  totalSize : ℕ → ℕ
  blockSize : ℕ → ℕ

/-- `params`, and what the block devices hold. -/
structure State where
  list : List Param
  dirty : Bool
  bdev : Option ℕ
  offset : ℕ
  len : ℕ
  flash : ℕ → ℕ → UInt8

/-- `sysparam_find`. -/
def State.find (s : State) (name : CString) : Option Param := s.list.find? fun p => p.name = name

/-- What the heap and the device answer to a scan: whether the buffer is allocated and
read, what lies in the heap around it, and which parameters find memory. -/
structure ScanEnv where
  bufOk : Bool
  readOk : Bool
  heap : ℕ → UInt8
  mallocOk : ℕ → Bool

/-- The buffer of a scan. -/
def State.buffer (s : State) (b offset len : ℕ) (heap : ℕ → UInt8) : ℕ → UInt8 :=
  fun i => if i < len then s.flash b (offset + i) else heap i

/-- `sysparam_scan`; `bio_read` returns the length into a `status_t`. -/
def sysparamScan (g : Geometry) (lvl : ℕ) (s : State) (b offset len : ℕ) (e : ScanEnv) :
    Option (State × Status) :=
  if DebugAssert lvl (0 < len) ∧ DebugAssert lvl (offset + u32 len ≤ g.totalSize b) ∧
      DebugAssert lvl (offset % g.blockSize b = 0) then
    let s := { s with bdev := some b, offset := offset, len := len, dirty := false }
    if e.bufOk = false then some (s, .noMemory)
    else if e.readOk = false ∨ 2 ^ 31 ≤ len then some (s, .io)
    else
      let r := scanLoop (s.buffer b offset len e.heap) offset len e.mallocOk len 0
      some ({ s with list := s.list ++ r.1 }, if r.2 then .ok else .noMemory)
  else none

/-- `sysparam_reload`. -/
def sysparamReload (g : Geometry) (lvl : ℕ) (s : State) (e : ScanEnv) : Option (State × Status) :=
  match s.bdev with
  | none => some (s, .invalidArgs)
  | some b =>
    if s.len = 0 then some (s, .invalidArgs)
    else sysparamScan g lvl { s with list := [], dirty := false } b s.offset s.len e

/-- What the heap and the device answer to a write: whether the buffer is allocated,
whether the area is erased and what it holds then, and whether it is written and what
it holds if it is not. -/
structure WriteEnv where
  bufOk : Bool
  eraseOk : Bool
  erased : ℕ → UInt8
  writeOk : Bool
  left : ℕ → UInt8

/-- The area after an operation of the device. -/
def State.setArea (s : State) (b : ℕ) (area : ℕ → UInt8) : State :=
  { s with flash := Function.update s.flash b fun i =>
      if s.offset ≤ i ∧ i < s.offset + s.len then area (i - s.offset) else s.flash b i }

/-- `sysparam_write`. -/
def sysparamWrite (s : State) (e : WriteEnv) : State × Status :=
  match s.bdev with
  | none => (s, .invalidArgs)
  | some b =>
    if s.len = 0 then (s, .invalidArgs)
    else if s.dirty = false then (s, .ok)
    else if s.len < totalLen s.list then (s, .noMemory)
    else if e.bufOk = false then (s, .noMemory)
    else if e.eraseOk = false then (s.setArea b e.erased, .io)
    else
      let buf := writeLoop s.list (fun _ => 0) 0
      ({ s.setArea b (if e.writeOk then buf else e.left) with dirty := false }, .ok)

/-- `sysparam_add`; `ok` says whether `sysparam_create` finds memory. -/
def sysparamAdd (s : State) (name : CString) (value : List UInt8) (ok : Bool) : State × Status :=
  if (s.find name).isSome then (s, .alreadyExists)
  else if ok = false then (s, .noMemory)
  else ({ s with list := s.list ++ [⟨0, name, value⟩], dirty := true }, .ok)

/-- `sysparam_remove`: the first parameter of the name. -/
def sysparamRemove (s : State) (name : CString) : State × Status :=
  match s.find name with
  | none => (s, .notFound)
  | some p =>
    if p.isLocked then (s, .notAllowed)
    else ({ s with list := s.list.eraseP fun p => p.name = name, dirty := true }, .ok)

/-- The flags of the first parameter of a name, with the lock bit set. -/
def lockFirst (name : CString) : List Param → List Param
  | [] => []
  | p :: ps => if p.name = name then { p with flags := p.flags ||| 1 } :: ps
      else p :: lockFirst name ps

/-- `sysparam_lock`. -/
def sysparamLock (s : State) (name : CString) : State × Status :=
  match s.find name with
  | none => (s, .notFound)
  | some p =>
    if p.isLocked then (s, .ok)
    else ({ s with list := lockFirst name s.list, dirty := true }, .ok)

/-! ### Runs -/

inductive Op
  | scan (b offset len : ℕ) (e : ScanEnv)
  | reload (e : ScanEnv)
  | write (e : WriteEnv)
  | add (name : CString) (value : List UInt8) (ok : Bool)
  | remove (name : CString)
  | lock (name : CString)

/-- One call, with the status it returns. -/
def call (g : Geometry) (lvl : ℕ) (s : State) : Op → Option (State × Status)
  | .scan b offset len e => sysparamScan g lvl s b offset len e
  | .reload e => sysparamReload g lvl s e
  | .write e => some (sysparamWrite s e)
  | .add name value ok => some (sysparamAdd s name value ok)
  | .remove name => some (sysparamRemove s name)
  | .lock name => some (sysparamLock s name)

def step (g : Geometry) (lvl : ℕ) (s : State) (op : Op) : Option State :=
  (call g lvl s op).map Prod.fst

/-! ### What is written is read back -/

/-- A parameter as it stands on the device. -/
def Param.encode (p : Param) : List UInt8 :=
  p.phys ++ (p.name.bytes ++
      List.replicate (roundup p.name.bytes.length 4 - p.name.bytes.length) 0) ++
    (p.data ++ List.replicate (roundup p.data.length 4 - p.data.length) 0)

/-- The lengths of a parameter fit their fields. -/
def Param.Fits (p : Param) : Prop := p.name.bytes.length < 2 ^ 16 ∧ p.data.length < 2 ^ 16

instance (p : Param) : Decidable p.Fits := inferInstanceAs (Decidable (_ ∧ _))

@[simp] theorem Param.length_phys (p : Param) : p.phys.length = 16 := by simp [phys]

theorem Param.length_encode (p : Param) :
    p.encode.length = 16 + roundup p.name.bytes.length 4 + roundup p.data.length 4 := by
  simp only [encode, List.length_append, length_phys, List.length_replicate, roundup]
  omega

theorem totalLen_eq (list : List Param) : totalLen list = (list.flatMap Param.encode).length := by
  rw [totalLen, List.length_flatMap]
  congr 1
  exact List.map_congr_left fun p _ => p.length_encode.symm

/-- The checksum of the writer is that of all that follows it, in one piece. -/
theorem Param.crc_eq (p : Param) :
    p.crc = Cksum.crc32 0 (le 4 p.flags.toNat ++ (le 2 p.name.bytes.length ++
      (le 2 p.data.length ++ (p.name.bytes ++
        (List.replicate (roundup p.name.bytes.length 4 - p.name.bytes.length) 0 ++
          (p.data ++ List.replicate (roundup p.data.length 4 - p.data.length) 0)))))) := by
  have hpad : roundup p.name.bytes.length 4 - p.name.bytes.length =
      if p.name.bytes.length % 4 ≠ 0 then 4 - p.name.bytes.length % 4 else 0 := by
    simp only [roundup]
    split_ifs <;> omega
  simp only [crc, hpad]
  split_ifs
  · simp only [Cksum.crc32_append, List.append_assoc]
  · simp only [Cksum.crc32_append, List.append_assoc, List.replicate_zero, List.nil_append]

variable {m : ℕ → UInt8}

/-- Zeros stored where there are zeros. -/
theorem store_zeros {off : ℕ} (h : ∀ i, off ≤ i → m i = 0) (l : List UInt8)
    (n : ℕ) : store m off (l ++ List.replicate n 0) = store m off l := by
  funext i
  unfold store
  split_ifs with hi
  · rcases Nat.lt_or_ge (i - off) l.length with hl | hl
    · rw [List.getElem?_append_left hl]
    · rw [List.getElem?_append_right hl, List.getElem?_eq_none hl, h i hi, Option.getD_none]
      rcases Nat.lt_or_ge (i - off - l.length) n with hn | hn
      · simp [hn]
      · simp [hn]
  · rfl

variable {pos : ℕ}

/-- **The buffer `sysparam_write` stages** is the parameters one behind the other. -/
theorem writeLoop_eq (list : List Param) {buf : ℕ → UInt8} (hpos : pos % 4 = 0)
    (hzero : ∀ i, pos ≤ i → buf i = 0) :
    writeLoop list buf pos = store buf pos (list.flatMap Param.encode) := by
  induction list generalizing buf pos with
  | nil => simp [writeLoop]
  | cons p ps ih =>
    -- the three stores of one parameter are one
    have hone : store (store (store buf pos p.phys) (pos + 16) p.name.bytes)
        (pos + 16 + roundup p.name.bytes.length 4) p.data = store buf pos p.encode := by
      have hz₁ : ∀ i, pos + 16 ≤ i → store buf pos p.phys i = 0 := fun i hi => by
        rw [store_of_not_mem (by simp; omega), hzero i (by omega)]
      have hlen : (p.phys ++ (p.name.bytes ++ List.replicate
          (roundup p.name.bytes.length 4 - p.name.bytes.length) 0)).length =
            16 + roundup p.name.bytes.length 4 := by
        simp only [List.length_append, Param.length_phys, List.length_replicate, roundup]
        omega
      rw [Param.encode, ← store_append buf pos, hlen, ← store_append buf pos p.phys,
        Param.length_phys, store_zeros hz₁, ← Nat.add_assoc, store_zeros]
      intro i hi
      rw [store_of_not_mem (by simp only [roundup] at hi; omega), hz₁ i (by omega)]
    have halign : (if (pos + 16 + roundup p.name.bytes.length 2) % 4 ≠ 0 then
        pos + 16 + roundup p.name.bytes.length 2 + 2
        else pos + 16 + roundup p.name.bytes.length 2) =
          pos + 16 + roundup p.name.bytes.length 4 := by
      by_cases h : (pos + 16 + roundup p.name.bytes.length 2) % 4 ≠ 0
      · rw [if_pos h]
        simp only [roundup] at h ⊢
        omega
      · rw [if_neg h]
        simp only [roundup] at h ⊢
        omega
    simp only [writeLoop]
    rw [halign, hone, ih, List.flatMap_cons, ← store_append, p.length_encode]
    · simp only [Nat.add_assoc]
    · simp only [roundup]
      omega
    · intro i hi
      rw [store_of_not_mem (by rw [p.length_encode]; omega), hzero i (by omega)]

/-- The header of a parameter in memory. -/
theorem Param.load_phys {p : Param} (hfits : p.Fits)
    (hm : window m pos p.encode.length = p.encode) :
    load32 m pos = sysparamMagic ∧ load32 m (pos + 4) = p.crc.toNat ∧
      sysparamLen m pos = p.encode.length ∧ sysparamCrc32 m pos = p.crc ∧
      sysparamReadPhys m pos = p := by
  obtain ⟨hname, hdata⟩ := hfits
  have hall := hm
  simp only [encode, phys, List.append_assoc, window_eq_append, length_le] at hall
  obtain ⟨hmagic, hcrc, hflags, hnlen, hdlen, hn, hnz, hd, hdz⟩ := hall
  simp only [Nat.add_assoc, Nat.reduceAdd] at hcrc hflags hnlen hdlen hn hnz hd hdz
  have h₁ : load16 m (pos + 12) = p.name.bytes.length := by
    rw [load16, hnlen, ofLe_le_of_lt (by omega)]
  have h₂ : load16 m (pos + 14) = p.data.length := by
    rw [load16, hdlen, ofLe_le_of_lt (by omega)]
  have hlen : sysparamLen m pos = p.encode.length := by
    rw [sysparamLen, h₁, h₂, length_encode]
  have hround : p.name.bytes.length ≤ roundup p.name.bytes.length 4 := by
    simp only [roundup]
    omega
  refine ⟨?_, ?_, hlen, ?_, ?_⟩
  · rw [load32, hmagic]
    decide
  · rw [load32, hcrc, ofLe_le_of_lt p.crc.toNat_lt]
  · rw [sysparamCrc32, hlen, p.crc_eq]
    congr 1
    have htail : p.encode.drop 8 = le 4 p.flags.toNat ++ (le 2 p.name.bytes.length ++
        (le 2 p.data.length ++ (p.name.bytes ++
          (List.replicate (roundup p.name.bytes.length 4 - p.name.bytes.length) 0 ++
            (p.data ++ List.replicate (roundup p.data.length 4 - p.data.length) 0))))) := by
      simp only [encode, phys, List.append_assoc]
      rw [← List.append_assoc, List.drop_left' (by simp)]
    rw [← htail, ← hm, drop_window _ _ (by rw [length_encode]; omega), length_window]
  · have hflags' : UInt32.ofNat (load32 m (pos + 8)) = p.flags := by
      rw [load32, hflags, ofLe_le_of_lt p.flags.toNat_lt, UInt32.ofNat_toNat]
    have hname' : CString.ofBytes (window m (pos + 16) p.name.bytes.length) = p.name := by
      obtain ⟨flags, ⟨bytes, nonul⟩, data⟩ := p
      simp only [hn, CString.ofBytes, CString.mk.injEq]
      exact List.takeWhile_eq_self_iff.2 fun b hb => by
        simpa using fun h0 : b = 0 => nonul (h0 ▸ hb)
    have hdata' : window m (pos + 16 + roundup p.name.bytes.length 4) p.data.length = p.data := by
      rw [← hd]
      simp only [length_window, List.length_replicate]
      congr 1
      omega
    simp only [sysparamReadPhys, h₁, h₂, hflags', hname', hdata']

variable {offset len : ℕ}

/-- Nothing is found where there are zeros. -/
theorem scanLoop_zeros {mallocOk : ℕ → Bool} (turns : ℕ)
    (hzero : ∀ i, pos ≤ i → i < len → m i = 0) :
    scanLoop m offset len mallocOk turns pos = ([], true) := by
  induction turns generalizing pos with
  | zero => rfl
  | succ turns ih =>
    by_cases hlt : pos < len
    · have hmagic : load32 m pos ≠ sysparamMagic := by
        intro hmagic
        have hlow : load32 m pos % 256 = (m pos).toNat := by
          simp [load32, window, List.range_succ, ofLe]
        rw [hzero pos le_rfl hlt, hmagic] at hlow
        exact absurd hlow (by decide)
      rw [scanLoop, if_pos hlt, if_pos hmagic]
      exact ih fun i hi => hzero i (by omega)
    · rw [scanLoop, if_neg hlt]

/-- **A scan finds the parameters that stand in the area**, one behind the other and
followed by zeros. -/
theorem scanLoop_image (list : List Param) (hfits : ∀ p ∈ list, p.Fits) {turns pos : ℕ}
    (hm : window m pos (list.flatMap Param.encode).length = list.flatMap Param.encode)
    (hlen : pos + (list.flatMap Param.encode).length ≤ len)
    (hzero : ∀ i, pos + (list.flatMap Param.encode).length ≤ i → i < len → m i = 0)
    (hturns : len ≤ pos + turns) :
    scanLoop m offset len (fun _ => true) turns pos = (list, true) := by
  induction list generalizing turns pos with
  | nil => exact scanLoop_zeros turns hzero
  | cons p ps ih =>
    obtain ⟨hp, hps⟩ := List.forall_mem_cons.1 hfits
    rw [List.flatMap_cons] at hm hlen hzero
    rw [List.length_append] at hlen hzero
    obtain ⟨hm₁, hm₂⟩ := window_eq_append.1 hm
    obtain ⟨hmagic, hcrc, hsplen, hsum, hread⟩ := Param.load_phys hp hm₁
    have hpos : 16 ≤ p.encode.length := by
      rw [p.length_encode]
      omega
    obtain ⟨turns, rfl⟩ : ∃ t, turns = t + 1 := ⟨turns - 1, by omega⟩
    rw [scanLoop, if_pos (by omega), if_neg (not_not.2 hmagic)]
    dsimp only
    rw [hsplen, if_neg (by omega), hcrc, hsum, if_neg (not_not.2 rfl), if_neg (by simp), hread,
      ih hps hm₂ (by omega) (fun i hi => hzero i (by omega)) (by omega)]

/-! ### A scan that stays inside its buffer -/

/-- No header in the area reaches past its end. -/
def Contained (area : ℕ → UInt8) (len : ℕ) : Prop :=
  len % 4 = 0 ∧ ∀ pos < len, pos % 4 = 0 → load32 area pos = sysparamMagic →
    pos + sysparamLen area pos ≤ len

theorem sysparamLen_mod (m : ℕ → UInt8) (sp : ℕ) : sysparamLen m sp % 4 = 0 := by
  simp only [sysparamLen, roundup]
  omega

theorem sixteen_le_sysparamLen (m : ℕ → UInt8) (sp : ℕ) : 16 ≤ sysparamLen m sp := by
  simp only [sysparamLen]
  omega

/-- What a header says is in the header and behind it. -/
theorem load16_congr {m m' : ℕ → UInt8} {a : ℕ} (h : ∀ i, a ≤ i → i < a + 2 → m' i = m i) :
    load16 m' a = load16 m a := by
  rw [load16, load16, window_congr fun i hi => h (a + i) (by omega) (by omega)]

theorem sysparamLen_congr {m m' : ℕ → UInt8} {pos len : ℕ} (h : ∀ i < len, m' i = m i)
    (hpos : pos + 16 ≤ len) : sysparamLen m' pos = sysparamLen m pos := by
  rw [sysparamLen, sysparamLen, load16_congr fun i _ hi => h i (by omega),
    load16_congr fun i _ hi => h i (by omega)]

/-- In an area at the start of a device nothing is found in the last bytes. -/
theorem scanLoop_end (m : ℕ → UInt8) {len : ℕ} {mallocOk : ℕ → Bool} (turns : ℕ)
    (h : len < pos + 16) : scanLoop m 0 len mallocOk turns pos = ([], true) := by
  induction turns generalizing pos with
  | zero => rfl
  | succ turns ih =>
    have h16 := sixteen_le_sysparamLen m pos
    rw [scanLoop]
    by_cases hlt : pos < len
    · rw [if_pos hlt]
      by_cases hm : load32 m pos ≠ sysparamMagic
      · rw [if_pos hm]
        exact ih (by omega)
      · rw [if_neg hm]
        dsimp only
        rw [if_pos (by omega)]
    · rw [if_neg hlt]

/-- Where the length check is exact, because the area starts the device, or no header
reaches past the end, a scan does not depend on what lies behind its buffer. -/
theorem scanLoop_congr (m m' : ℕ → UInt8) (mallocOk : ℕ → Bool)
    (h : ∀ i < len, m' i = m i) (hsafe : offset = 0 ∨ Contained m len) (turns : ℕ)
    (hpos : pos % 4 = 0) :
    scanLoop m' offset len mallocOk turns pos = scanLoop m offset len mallocOk turns pos := by
  induction turns generalizing pos with
  | zero => rfl
  | succ turns ih =>
    by_cases hlt : pos < len
    swap
    · rw [scanLoop, scanLoop, if_neg hlt, if_neg hlt]
    by_cases hin : pos + 16 ≤ len
    · have hlen := sysparamLen_congr h hin
      have hmagic : load32 m' pos = load32 m pos := load32_congr fun i _ hi => h i (by omega)
      have hcrc : load32 m' (pos + 4) = load32 m (pos + 4) :=
        load32_congr fun i _ hi => h i (by omega)
      rw [scanLoop, scanLoop, if_pos hlt, if_pos hlt, hmagic, hcrc, hlen]
      by_cases hm : load32 m pos ≠ sysparamMagic
      · rw [if_pos hm, if_pos hm]
        exact ih (by omega)
      rw [if_neg hm, if_neg hm]
      dsimp only
      by_cases hfar : offset + len < pos + sysparamLen m pos
      · rw [if_pos hfar, if_pos hfar]
      have hnear : pos + sysparamLen m pos ≤ len := by
        rcases hsafe with rfl | hc
        · omega
        · exact hc.2 pos hlt hpos (not_not.1 hm)
      have hsum : sysparamCrc32 m' pos = sysparamCrc32 m pos := by
        rw [sysparamCrc32, sysparamCrc32, hlen]
        congr 1
        exact window_congr fun i hi => h _ (by omega)
      have hn : load16 m' (pos + 12) = load16 m (pos + 12) :=
        load16_congr fun i _ hi => h i (by omega)
      have hd : load16 m' (pos + 14) = load16 m (pos + 14) :=
        load16_congr fun i _ hi => h i (by omega)
      have hf : load32 m' (pos + 8) = load32 m (pos + 8) :=
        load32_congr fun i _ hi => h i (by omega)
      have hround : load16 m (pos + 12) ≤ roundup (load16 m (pos + 12)) 4 ∧
          load16 m (pos + 14) ≤ roundup (load16 m (pos + 14)) 4 := by
        simp only [roundup]
        omega
      have hread : sysparamReadPhys m' pos = sysparamReadPhys m pos := by
        rw [sysparamLen] at hnear
        simp only [sysparamReadPhys, hn, hd, hf]
        rw [window_congr (g := m) fun i hi => h _ (by omega),
          window_congr (g := m) fun i hi => h (pos + 16 + _ + i) (by omega)]
      have hmod := sysparamLen_mod m pos
      rw [if_neg hfar, if_neg hfar, hsum, hread, ih (by omega)]
    · rcases hsafe with rfl | hc
      · rw [scanLoop_end m' (turns + 1) (by omega), scanLoop_end m (turns + 1) (by omega)]
      · -- there is no header so close to the end
        have hlen := hc.1
        have hmagic : load32 m' pos = load32 m pos := load32_congr fun i _ hi => h i (by omega)
        have hm : load32 m pos ≠ sysparamMagic := fun hm => by
          have := hc.2 pos hlt hpos hm
          have := sixteen_le_sysparamLen m pos
          omega
        rw [scanLoop, scanLoop, if_pos hlt, if_pos hlt, hmagic, if_pos hm, if_pos hm]
        exact ih (by omega)

/-- With memory for every parameter a scan gets to the end. -/
theorem scanLoop_snd (m : ℕ → UInt8) (offset len turns pos : ℕ) :
    (scanLoop m offset len (fun _ => true) turns pos).2 = true := by
  induction turns generalizing pos with
  | zero => rfl
  | succ turns ih =>
    rw [scanLoop]
    by_cases hlt : pos < len
    · rw [if_pos hlt]
      by_cases hm : load32 m pos ≠ sysparamMagic
      · rw [if_pos hm]
        exact ih _
      · rw [if_neg hm]
        dsimp only
        split_ifs with hfar hcrc hok
        · rfl
        · exact ih _
        · exact hok.elim
        · exact ih _
    · rw [if_neg hlt]

/-! ### The condition and what it gives -/

/-- The heap and the device give a scan all it asks for. -/
def ScanEnv.Good (e : ScanEnv) : Prop := e.bufOk = true ∧ e.readOk = true ∧ ∀ pos, e.mallocOk pos

/-- The parameters a scan of an area finds. -/
def State.scanned (s : State) (b offset len : ℕ) (e : ScanEnv) : List Param :=
  (scanLoop (s.buffer b offset len e.heap) offset len e.mallocOk len 0).1

/-- The condition under which a call keeps what is in memory and what is on the device in
step.  A scan starts from an empty list, succeeds, and finds no header that reaches past
the end of its area (or the area starts the device, where the check is exact); and a
write writes parameters whose lengths fit their fields to a device that takes them. -/
def Op.Meets (s : State) : Op → Prop
  | .scan b offset len e => s.list = [] ∧ e.Good ∧ len < 2 ^ 31 ∧
      (offset = 0 ∨ Contained (s.buffer b offset len e.heap) len)
  | .reload e => ∀ b ∈ s.bdev, e.Good ∧
      (s.offset = 0 ∨ Contained (s.buffer b s.offset s.len e.heap) s.len)
  | .write e => s.dirty = true → e.writeOk = true ∧ ∀ p ∈ s.list, p.Fits
  | _ => True

/-- The area a call scans has unique names. -/
def Op.ScansUnique (s : State) : Op → Prop
  | .scan b offset len e => ((s.scanned b offset len e).map Param.name).Nodup
  | .reload e => ∀ b ∈ s.bdev, ((s.scanned b s.offset s.len e).map Param.name).Nodup
  | _ => True

/-- What a call promises.  A write that reports success has written the area in full, if
it had anything to write, and a reload finds the same parameters in the same order; and
but for a reload, which drops what was not written, no call loses a locked parameter. -/
def Op.Promise (g : Geometry) (lvl : ℕ) (s : State) (op : Op) : Prop :=
  ∀ s' status, call g lvl s op = some (s', status) →
    (∀ e, op = .write e → status = .ok →
      (s.dirty = true → ∀ b ∈ s.bdev, ∀ i < s.len, s'.flash b (s.offset + i) =
        store (fun _ => 0) 0 (s.list.flatMap Param.encode) i) ∧
      ∀ e : ScanEnv, e.Good → ∃ s'', sysparamReload g lvl s' e = some (s'', .ok) ∧
        s''.list = s'.list) ∧
    ((∀ e, op ≠ .reload e) → ∀ p ∈ s.list, p.isLocked = true → p ∈ s'.list)

/-- The invariant: the assertions of a scan hold of the area in use, and where nothing is
left to write, a scan of the area finds the list. -/
structure Inv (g : Geometry) (lvl : ℕ) (s : State) : Prop where
  area : ∀ b ∈ s.bdev, (DebugAssert lvl (0 < s.len) ∧
    DebugAssert lvl (s.offset + u32 s.len ≤ g.totalSize b) ∧
    DebugAssert lvl (s.offset % g.blockSize b = 0)) ∧ s.len < 2 ^ 31
  clean : s.dirty = false → ∀ b ∈ s.bdev, ∀ heap,
    scanLoop (s.buffer b s.offset s.len heap) s.offset s.len (fun _ => true) s.len 0 =
      (s.list, true)

variable {g : Geometry} {lvl : ℕ} {s s' : State}

variable {status : Status}

/-- A scan from an empty list. -/
theorem sysparamScan_spec {b offset len : ℕ} {e : ScanEnv} (hlist : s.list = [])
    (he : e.Good) (hlen : len < 2 ^ 31)
    (hsafe : offset = 0 ∨ Contained (s.buffer b offset len e.heap) len)
    (h : sysparamScan g lvl s b offset len e = some (s', status)) :
    Inv g lvl s' ∧ status = .ok ∧ s'.list = s.scanned b offset len e := by
  obtain ⟨hbuf, hread, hmalloc⟩ := he
  have hall : e.mallocOk = fun _ => true := funext hmalloc
  unfold sysparamScan at h
  by_cases hassert : DebugAssert lvl (0 < len) ∧ DebugAssert lvl (offset + u32 len ≤ g.totalSize b) ∧
      DebugAssert lvl (offset % g.blockSize b = 0)
  swap
  · rw [if_neg hassert] at h
    exact absurd h (by simp)
  rw [if_pos hassert] at h
  dsimp only at h
  rw [if_neg (by simp [hbuf]), if_neg (not_or.2 ⟨by simp [hread], by omega⟩), hall, scanLoop_snd,
    hlist] at h
  cases h
  refine ⟨⟨fun b' hb' => ?_, fun _ b' hb' heap => ?_⟩, rfl, ?_⟩
  · cases hb'
    exact ⟨hassert, hlen⟩
  · cases hb'
    dsimp only
    have hcongr := scanLoop_congr (s.buffer b offset len e.heap) (s.buffer b offset len heap)
      (fun _ => true) (fun i hi => by simp [State.buffer, hi]) hsafe len (Nat.zero_mod 4)
    exact hcongr.trans (Prod.ext rfl (scanLoop_snd ..))
  · simp only [State.scanned, hall, List.nil_append]
    rfl

/-- **A reload where a scan of the area finds the list.** -/
theorem sysparamReload_spec {b : ℕ} (h : Inv g lvl s) (hb : s.bdev = some b) (hlen : s.len ≠ 0)
    (hscan : ∀ heap, scanLoop (s.buffer b s.offset s.len heap) s.offset s.len (fun _ => true)
      s.len 0 = (s.list, true)) {e : ScanEnv} (he : e.Good) :
    ∃ s'', sysparamReload g lvl s e = some (s'', .ok) ∧ s''.list = s.list := by
  obtain ⟨hbuf, hread, hmalloc⟩ := he
  obtain ⟨hassert, hlt⟩ := h.area b hb
  have hall : e.mallocOk = fun _ => true := funext hmalloc
  unfold sysparamReload sysparamScan
  rw [hb]
  dsimp only
  rw [if_neg hlen, if_pos hassert, if_neg (by simp [hbuf]),
    if_neg (not_or.2 ⟨by simp [hread], by omega⟩), hall]
  have hfound : scanLoop (State.buffer ⟨[], false, some b, s.offset, s.len, s.flash⟩ b s.offset
      s.len e.heap) s.offset s.len (fun _ => true) s.len 0 = (s.list, true) := hscan e.heap
  rw [hfound]
  exact ⟨_, rfl, rfl⟩

/-- The buffer of a scan of an area that was written. -/
theorem buffer_setArea (b : ℕ) (area heap : ℕ → UInt8) (i : ℕ) (hi : i < s.len) :
    (s.setArea b area).buffer b s.offset s.len heap i = area i := by
  simp only [State.buffer, State.setArea, if_pos hi, Function.update_self]
  rw [if_pos (by omega), Nat.add_sub_cancel_left]

/-- **`sysparam_write`** to a device that takes what is written. -/
theorem sysparamWrite_spec (h : Inv g lvl s) {e : WriteEnv} (hok : (Op.write e).Meets s)
    (hw : sysparamWrite s e = (s', status)) :
    Inv g lvl s' ∧ s'.list = s.list ∧ (status = .ok →
      (s.dirty = true → ∀ b ∈ s.bdev, ∀ i < s.len, s'.flash b (s.offset + i) =
        store (fun _ => 0) 0 (s.list.flatMap Param.encode) i) ∧
      ∀ e : ScanEnv, e.Good → ∃ s'', sysparamReload g lvl s' e = some (s'', .ok) ∧
        s''.list = s'.list) := by
  unfold sysparamWrite at hw
  cases hb : s.bdev with
  | none =>
    rw [hb] at hw
    obtain ⟨rfl, rfl⟩ := Prod.mk.inj hw
    exact ⟨h, rfl, by simp⟩
  | some b =>
    rw [hb] at hw
    dsimp only at hw
    by_cases hlen : s.len = 0
    · rw [if_pos hlen] at hw
      obtain ⟨rfl, rfl⟩ := Prod.mk.inj hw
      exact ⟨h, rfl, by simp⟩
    rw [if_neg hlen] at hw
    by_cases hdirty : s.dirty = false
    · -- nothing to write
      rw [if_pos hdirty] at hw
      obtain ⟨rfl, rfl⟩ := Prod.mk.inj hw
      refine ⟨h, rfl, fun _ => ⟨fun hd => absurd (hdirty.symm.trans hd) (by simp), ?_⟩⟩
      exact fun e he => sysparamReload_spec h hb hlen (h.clean hdirty b hb) he
    rw [if_neg hdirty] at hw
    by_cases hroom : s.len < totalLen s.list
    · rw [if_pos hroom] at hw
      obtain ⟨rfl, rfl⟩ := Prod.mk.inj hw
      exact ⟨h, rfl, by simp⟩
    rw [if_neg hroom] at hw
    by_cases hbuf : e.bufOk = false
    · rw [if_pos hbuf] at hw
      obtain ⟨rfl, rfl⟩ := Prod.mk.inj hw
      exact ⟨h, rfl, by simp⟩
    rw [if_neg hbuf] at hw
    by_cases herase : e.eraseOk = false
    · rw [if_pos herase] at hw
      obtain ⟨rfl, rfl⟩ := Prod.mk.inj hw
      exact ⟨⟨h.area, fun hd => absurd hd hdirty⟩, rfl, by simp⟩
    rw [if_neg herase] at hw
    obtain ⟨hwrite, hfits⟩ := hok (by simpa using hdirty)
    rw [if_pos hwrite, writeLoop_eq _ rfl fun _ _ => rfl] at hw
    obtain ⟨rfl, rfl⟩ := Prod.mk.inj hw
    rw [totalLen_eq] at hroom
    have hscan : ∀ heap, scanLoop
        ((s.setArea b (store (fun _ => 0) 0 (s.list.flatMap Param.encode))).buffer b s.offset
          s.len heap) s.offset s.len (fun _ => true) s.len 0 = (s.list, true) := by
      intro heap
      refine scanLoop_image s.list hfits ?_ (by omega) ?_ (by omega)
      · have hread := window_store (fun _ => (0 : UInt8)) 0 [] (s.list.flatMap Param.encode) []
        simp only [List.nil_append, List.append_nil, List.length_nil, Nat.add_zero] at hread
        conv_rhs => rw [← hread]
        refine window_congr fun i hi => ?_
        rw [Nat.zero_add, buffer_setArea _ _ _ _ (by omega)]
      · intro i hi hlt
        rw [buffer_setArea _ _ _ _ hlt, store_of_not_mem (by omega)]
    have hinv : Inv g lvl { s.setArea b (store (fun _ => 0) 0 (s.list.flatMap Param.encode)) with
        dirty := false } := by
      refine ⟨h.area, fun _ b' hb' => ?_⟩
      obtain rfl : b = b' := Option.some.inj (hb.symm.trans hb')
      exact hscan
    refine ⟨hinv, rfl, fun _ => ⟨fun _ b' hb' i hi => ?_, fun e he => ?_⟩⟩
    · cases hb'
      have hread := buffer_setArea b (store (fun _ => 0) 0 (s.list.flatMap Param.encode))
        (fun _ => 0) i hi
      rwa [State.buffer, if_pos hi] at hread
    · exact sysparamReload_spec hinv hb hlen hscan he

/-! ### Locked parameters and names -/

theorem mem_lockFirst {name : CString} {list : List Param} {p q : Param}
    (hq : list.find? (fun p => p.name = name) = some q) (hlocked : q.isLocked = false)
    (hp : p ∈ list) (hplocked : p.isLocked = true) : p ∈ lockFirst name list := by
  induction list with
  | nil => simp at hp
  | cons r rs ih =>
    rw [lockFirst]
    by_cases hr : r.name = name
    · rw [if_pos hr]
      rw [List.find?_cons_of_pos (by simpa using hr)] at hq
      cases hq
      refine List.mem_cons_of_mem _ ((List.mem_cons.1 hp).resolve_left fun he => ?_)
      rw [he, hlocked] at hplocked
      exact absurd hplocked (by simp)
    · rw [if_neg hr]
      rw [List.find?_cons_of_neg (by simpa using hr)] at hq
      rcases List.mem_cons.1 hp with rfl | hp
      · exact List.mem_cons_self
      · exact List.mem_cons_of_mem _ (ih hq hp)

theorem map_name_lockFirst (name : CString) (list : List Param) :
    (lockFirst name list).map Param.name = list.map Param.name := by
  induction list with
  | nil => rfl
  | cons p ps ih =>
    rw [lockFirst]
    split_ifs
    · rfl
    · rw [List.map_cons, ih, List.map_cons]

/-- **`sysparam_remove`** leaves the locked parameters where they are. -/
theorem mem_sysparamRemove {name : CString} {p : Param} (hp : p ∈ s.list)
    (hlocked : p.isLocked = true) : p ∈ (sysparamRemove s name).1.list := by
  unfold sysparamRemove
  cases hf : s.find name with
  | none => exact hp
  | some q =>
    dsimp only
    by_cases hq : q.isLocked = true
    · rw [if_pos hq]
      exact hp
    · rw [if_neg hq]
      obtain ⟨hq', hname⟩ := Keyed.of_find hf
      obtain ⟨b, l₁, l₂, hl₁, hb, hl, herase⟩ :=
        List.exists_of_eraseP (p := fun p => decide (p.name = name)) hq' (by simpa using hname)
      have hbq : b = q := by
        unfold State.find at hf
        rw [hl, List.find?_append, List.find?_eq_none.2 fun c hc => by simpa using hl₁ c hc,
          Option.none_or,
          List.find?_cons_of_pos (p := fun p : Param => decide (p.name = name)) hb] at hf
        exact Option.some.inj hf
      rw [herase]
      rw [hl] at hp
      simp only [List.mem_append, List.mem_cons] at hp ⊢
      rcases hp with hp | rfl | hp
      · exact .inl hp
      · exact absurd (hbq ▸ hlocked) hq
      · exact .inr hp

/-- What a call on the list keeps. -/
structure Kept (g : Geometry) (lvl : ℕ) (s s' : State) : Prop where
  inv : Inv g lvl s'
  locked : ∀ p ∈ s.list, p.isLocked = true → p ∈ s'.list
  names : (s.list.map Param.name).Nodup → (s'.list.map Param.name).Nodup

theorem Kept.refl (h : Inv g lvl s) : Kept g lvl s s := ⟨h, fun _ hp _ => hp, id⟩

/-- The calls that only change the list have something to write then. -/
theorem Inv.of_dirty (h : Inv g lvl s) (list : List Param) :
    Inv g lvl { s with list := list, dirty := true } :=
  ⟨h.area, fun hd => absurd hd (by simp)⟩

theorem Inv.add (h : Inv g lvl s) (name : CString) (value : List UInt8) (ok : Bool) :
    Kept g lvl s (sysparamAdd s name value ok).1 := by
  unfold sysparamAdd
  split_ifs with hfind hok
  · exact .refl h
  · exact .refl h
  · refine ⟨h.of_dirty _, fun p hp _ => List.mem_append_left _ hp, fun hn => ?_⟩
    exact Keyed.nodup_concat hn fun p hp he => hfind (Keyed.find_isSome_iff.2 ⟨p, hp, he⟩)

theorem Inv.remove (h : Inv g lvl s) (name : CString) :
    Kept g lvl s (sysparamRemove s name).1 := by
  have hlocked : ∀ p ∈ s.list, p.isLocked = true → p ∈ (sysparamRemove s name).1.list :=
    fun p hp => mem_sysparamRemove hp
  unfold sysparamRemove at hlocked ⊢
  cases hf : s.find name with
  | none => exact .refl h
  | some q =>
    rw [hf] at hlocked
    dsimp only at hlocked ⊢
    split_ifs at hlocked ⊢
    · exact .refl h
    · exact ⟨h.of_dirty _, hlocked, fun hn => hn.sublist (List.eraseP_sublist.map _)⟩

theorem Inv.lock (h : Inv g lvl s) (name : CString) : Kept g lvl s (sysparamLock s name).1 := by
  unfold sysparamLock
  cases hf : s.find name with
  | none => exact .refl h
  | some q =>
    dsimp only
    split_ifs with hq
    · exact .refl h
    · refine ⟨h.of_dirty _, fun p hp => mem_lockFirst hf (by simpa using hq) hp, fun hn => ?_⟩
      rw [map_name_lockFirst]
      exact hn

/-! ### The main result -/

/-- A call other than a scan, a reload and a write. -/
theorem Kept.promise {op : Op} (h : Kept g lvl s s')
    (hcall : call g lvl s op = some (s', status)) (hop : ∀ e, op ≠ .write e) :
    op.Promise g lvl s ∧ ∀ s', step g lvl s op = some s' → Inv g lvl s' ∧
      (op.ScansUnique s → (s.list.map Param.name).Nodup → (s'.list.map Param.name).Nodup) := by
  refine ⟨fun s₁ status₁ hs => ?_, fun s₁ hs => ?_⟩
  · obtain ⟨rfl, rfl⟩ := Prod.mk.inj (Option.some.inj (hcall.symm.trans hs))
    exact ⟨fun e he => absurd he (hop e), fun _ => h.locked⟩
  · rw [step, hcall, Option.map_some] at hs
    cases hs
    exact ⟨h.inv, fun _ => h.names⟩

/-- **One call.** -/
theorem Inv.step (h : Inv g lvl s) {op : Op} (hok : op.Meets s) :
    op.Promise g lvl s ∧ ∀ s', step g lvl s op = some s' → Inv g lvl s' ∧
      (op.ScansUnique s → (s.list.map Param.name).Nodup → (s'.list.map Param.name).Nodup) := by
  cases op with
  | scan b offset len e =>
    obtain ⟨hlist, he, hlen, hsafe⟩ := hok
    refine ⟨fun s' status hs => ⟨by simp, fun _ p hp => by simp [hlist] at hp⟩, fun s' hs => ?_⟩
    obtain ⟨⟨s₁, status⟩, hscan, rfl⟩ := Option.map_eq_some_iff.1 hs
    obtain ⟨hinv, -, hlist'⟩ := sysparamScan_spec hlist he hlen hsafe hscan
    exact ⟨hinv, fun hunique _ => by rw [hlist']; exact hunique⟩
  | reload e =>
    refine ⟨fun s' status hs => ⟨by simp, fun hno => absurd rfl (hno e)⟩, fun s' hs => ?_⟩
    obtain ⟨⟨s₁, status⟩, hload, rfl⟩ := Option.map_eq_some_iff.1 hs
    unfold call sysparamReload at hload
    cases hb : s.bdev with
    | none =>
      rw [hb] at hload
      cases hload
      exact ⟨h, fun _ hn => hn⟩
    | some b =>
      rw [hb] at hload
      dsimp only at hload
      by_cases hlen : s.len = 0
      · rw [if_pos hlen] at hload
        cases hload
        exact ⟨h, fun _ hn => hn⟩
      · rw [if_neg hlen] at hload
        obtain ⟨he, hsafe⟩ := hok b hb
        obtain ⟨hinv, -, hlist'⟩ := sysparamScan_spec
          (s := ⟨[], false, some b, s.offset, s.len, s.flash⟩) rfl he (h.area b hb).2 hsafe hload
        exact ⟨hinv, fun hunique _ => by rw [hlist']; exact hunique b hb⟩
  | write e =>
    obtain ⟨hinv, hlist, hpromise⟩ := sysparamWrite_spec h hok (Prod.mk.eta (p := _)).symm
    refine ⟨fun s' status hs => ?_, fun s' hs => ?_⟩
    · obtain hs := Option.some.inj hs
      rw [hs] at hlist hpromise
      exact ⟨fun _ _ hstatus => hpromise hstatus, fun _ p hp _ => by rwa [hlist]⟩
    · cases hs
      exact ⟨hinv, fun _ hn => by rwa [hlist]⟩
  | add name value ok => exact (h.add name value ok).promise rfl (by simp)
  | remove name => exact (h.remove name).promise rfl (by simp)
  | lock name => exact (h.lock name).promise rfl (by simp)

/-- `sysparam_init`, and what the devices hold. -/
def start (flash : ℕ → ℕ → UInt8) : State := ⟨[], false, none, 0, 0, flash⟩

theorem inv_start (flash : ℕ → ℕ → UInt8) : Inv g lvl (start flash) :=
  ⟨by simp [start], fun _ b hb => by simp [start] at hb⟩

/-- **Parameters persist.**  In every run whose calls meet the condition every write that
reports success has written its area in full and is found again by a reload, no locked
parameter is lost, and names stay unique when the areas scanned have unique names. -/
theorem sysparam_persists (g : Geometry) (lvl : ℕ) (flash : ℕ → ℕ → UInt8) (ops : List Op)
    (hok : Machine.Along (step g lvl) (fun s op => op.Meets s) (start flash) ops) :
    Machine.Along (step g lvl) (fun s op => op.Promise g lvl s) (start flash) ops ∧
      (Machine.Along (step g lvl) (fun s op => op.ScansUnique s) (start flash) ops →
        Machine.Throughout (step g lvl) (fun s => (s.list.map Param.name).Nodup) (start flash)
          ops) := by
  have hinv : Machine.Throughout (step g lvl) (Inv g lvl) (start flash) ops :=
    hok.throughout (fun s op s' h hm hs => ((h.step hm).2 s' hs).1) (inv_start flash)
  have hboth := hinv.along hok
  constructor
  · exact hboth.imp fun s op h => (h.1.step h.2).1
  · intro hunique
    have hall := hinv.along (hok.and hunique)
    have hstep : ∀ s op s', (s.list.map Param.name).Nodup →
        Inv g lvl s ∧ op.Meets s ∧ op.ScansUnique s → step g lvl s op = some s' →
          (s'.list.map Param.name).Nodup :=
      fun s op s' hn h hs => ((h.1.step h.2.1).2 s' hs).2 h.2.2 hn
    exact hall.throughout hstep (by simp [start])

/-- A device of 64 bytes in blocks of four. -/
def smallDevice : Geometry := ⟨fun _ => 64, fun _ => 4⟩

/-- A scan that finds all it asks for. -/
def goodScan : ScanEnv := ⟨true, true, fun _ => 0, fun _ => true⟩

/-- The name `a`. -/
def nameA : CString := ⟨[0x61], nonul_letter⟩

theorem good_goodScan : goodScan.Good := ⟨rfl, rfl, fun _ => rfl⟩

/-- An empty area, a parameter and a write. -/
theorem sysparam_persists_one :
    Machine.Along (step smallDevice 2) (fun s op => op.Promise smallDevice 2 s)
        (start fun _ _ => 0) [.scan 0 0 32 goodScan, .add nameA [1] true,
          .write ⟨true, true, fun _ => 0xff, true, fun _ => 0⟩] ∧
      (Machine.Along (step smallDevice 2) (fun s op => op.ScansUnique s)
          (start fun _ _ => 0) [.scan 0 0 32 goodScan, .add nameA [1] true,
            .write ⟨true, true, fun _ => 0xff, true, fun _ => 0⟩] →
        Machine.Throughout (step smallDevice 2) (fun s => (s.list.map Param.name).Nodup)
          (start fun _ _ => 0) [.scan 0 0 32 goodScan, .add nameA [1] true,
            .write ⟨true, true, fun _ => 0xff, true, fun _ => 0⟩]) := by
  refine sysparam_persists smallDevice 2 _ _ ⟨⟨rfl, good_goodScan, by norm_num, .inl rfl⟩,
    fun s₁ h₁ => ⟨trivial, fun s₂ h₂ => ⟨fun _ => ⟨rfl, ?_⟩, fun _ _ => trivial⟩⟩⟩
  cases h₁
  cases h₂
  decide +kernel

/-- Parameters persist in every run whose scanned areas have unique names. -/
def Persistent (g : Geometry) (lvl : ℕ) : Prop :=
  ∀ (flash : ℕ → ℕ → UInt8) (ops : List Op),
    Machine.Along (step g lvl) (fun s op => op.ScansUnique s) (start flash) ops →
      Machine.Along (step g lvl) (fun s op => op.Promise g lvl s) (start flash) ops ∧
        Machine.Throughout (step g lvl) (fun s => (s.list.map Param.name).Nodup) (start flash) ops

/-- **A write that failed reports success**: the area was erased and `bio_write` refused. -/
theorem failed_write_succeeds : ¬ Persistent smallDevice 2 := by
  intro h
  have hrun := (h (fun _ _ => 0) [.scan 0 0 32 goodScan, .add nameA [1] true,
    .write ⟨true, true, fun _ => 0xff, false, fun _ => 0xff⟩]
    ⟨by simp only [Op.ScansUnique]; decide +kernel, fun _ _ => ⟨trivial, fun _ _ => ⟨trivial,
      fun _ _ => trivial⟩⟩⟩).1
  have hpromise := ((hrun.2 _ rfl).2 _ rfl).1 _ _ rfl
  have hbyte := (hpromise.1 _ rfl rfl).1 rfl 0 rfl 0 (by decide)
  exact absurd hbyte (by decide +kernel)

end Sysparam
end LittleKernel
