/-
# The flash partition table

`lib/ptable/ptable.c`, with what it uses of `lib/bio/bio.c` and
`lib/bio/subdev.c`: the list of registered devices, in which `bio_open` takes
the first of a name, and the byte reads, writes and erases of a subdevice, which
are those of its parent moved by its start.

One block device `d` holds the table.  Its transfers inside the device succeed
and memory can be allocated; what a transfer past the end leaves out, and every
error the partition code itself returns, is as in the source.  The checksum is a
parameter, since writer and scanner feed it the same bytes.  Byte offsets and
lengths are `uint64_t` and block numbers `bnum_t`; a mask of a power of two is a
remainder.
-/

import LittleKernel.Lib.Bytes
import LittleKernel.Lib.Memory
import LittleKernel.Lib.Word

namespace LittleKernel
namespace Ptable

open Bytes Memory Word

/-- The error codes of the partition code (`include/err.h`). -/
inductive Err where
  | generic
  | notFound
  | badState
  | tooBig
  | io
  | alreadyExists
  | invalidArgs
  | notMounted
  | notAllowed
  | crcFail
  | noMemory
  deriving DecidableEq

/-- `bio_erase_geometry_info_t`, the erase size being `2 ^ eraseShift`. -/
structure Geo where
  start : ℕ
  size : ℕ
  eraseShift : ℕ
  deriving DecidableEq

/-- The block device the table lives on. -/
structure Device where
  name : CString
  blockShift : ℕ
  blockCount : ℕ
  geometry : List Geo
  eraseByte : UInt8
  blockShift_lt : blockShift < 32
  blockCount_lt : blockCount < 2 ^ 32

def Device.blockSize (d : Device) : ℕ := 2 ^ d.blockShift

/-- A registered `bdev_t`: the device, or a subdevice of one. -/
inductive Dev where
  | base
  | sub (parent : Dev) (name : CString) (start count : ℕ) (geo : Option Geo)
  deriving DecidableEq

variable (d : Device)

def Dev.name : Dev → CString
  | .base => d.name
  | .sub _ name _ _ _ => name

def Dev.blockCount : Dev → ℕ
  | .base => d.blockCount
  | .sub _ _ _ count _ => count

def Dev.totalSize (b : Dev) : ℕ := b.blockCount d * d.blockSize

def Dev.geometry : Dev → List Geo
  | .base => d.geometry
  | .sub _ _ _ _ geo => geo.toList

/-- `bio_trim_range`. -/
def bioTrimRange (b : Dev) (offset len : ℕ) : ℕ :=
  if offset ≥ b.totalSize d then 0
  else if offset + len > b.totalSize d then b.totalSize d - offset else len

/-- The place on the device and the length of a transfer: `bio_read`, `bio_write`
and `bio_erase` trim it, `subdev_read` and its like hand it to the parent. -/
def Dev.extent : Dev → (offset len : ℕ) → ℕ × ℕ
  | .base, offset, len => (offset, bioTrimRange d .base offset len)
  | .sub parent name start count geo, offset, len =>
    Dev.extent parent (offset + start * d.blockSize)
      (bioTrimRange d (.sub parent name start count geo) offset len)

/-- `bio_read`: the bytes read. -/
def bioRead (b : Dev) (disk : ℕ → UInt8) (offset len : ℕ) : List UInt8 :=
  window disk (b.extent d offset len).1 (b.extent d offset len).2

/-- `bio_write`: the new contents of the device and the number of bytes written. -/
def bioWrite (b : Dev) (disk : ℕ → UInt8) (offset : ℕ) (buf : List UInt8) : (ℕ → UInt8) × ℕ :=
  let e := b.extent d offset buf.length
  (store disk e.1 (buf.take e.2), e.2)

/-- `bio_erase`: the new contents of the device and the number of bytes erased. -/
def bioErase (b : Dev) (disk : ℕ → UInt8) (offset len : ℕ) : (ℕ → UInt8) × ℕ :=
  let e := b.extent d offset len
  (store disk e.1 (List.replicate e.2 d.eraseByte), e.2)

/-- `bio_open`. -/
def bioOpen (bdevs : List Dev) (name : CString) : Option Dev :=
  bdevs.find? fun b => b.name d = name

/-- `bio_open` and `bio_unregister_device`. -/
def bioUnregister (bdevs : List Dev) (name : CString) : List Dev :=
  bdevs.eraseP fun b => b.name d = name

/-- `bio_does_overlap`. -/
def bioDoesOverlap (start1 len1 start2 len2 : ℕ) : Bool :=
  let end1 := u64 (start1 + len1)
  let end2 := u64 (start2 + len2)
  (start1 ≥ start2 && start1 < end2) || (start2 ≥ start1 && start2 < end1)

/-- `bio_contains_range`. -/
def bioContainsRange (start1 len1 start2 len2 : ℕ) : Bool :=
  start1 ≤ start2 && u64 (start1 + len1) ≥ u64 (start2 + len2)

/-- The geometry a subdevice inherits, or the reason it cannot be published.  The
search keeps the last region it looked at when none contains the range. -/
def subdeviceGeometry (parent : Dev) (startblock blockCount : ℕ) : Except Err (Option Geo) :=
  match (parent.geometry d).getLast? with
  | none =>
    let endblock := u32 (startblock + blockCount)
    if endblock < startblock ∨ endblock > parent.blockCount d then .error .invalidArgs
    else .ok none
  | some last =>
    let byteStart := u64 (startblock * d.blockSize)
    let byteSize := u64 (blockCount * d.blockSize)
    let geo := ((parent.geometry d).find? fun g =>
      bioContainsRange g.start g.size byteStart byteSize).getD last
    if byteStart % 2 ^ geo.eraseShift ≠ 0 ∨ byteSize % 2 ^ geo.eraseShift ≠ 0 then
      .error .invalidArgs
    else .ok (some ⟨0, byteSize, geo.eraseShift⟩)

/-- `bio_publish_subdevice`. -/
def bioPublishSubdevice (bdevs : List Dev) (parentDev subdev : CString)
    (startblock blockCount : ℕ) : Except Err (List Dev) :=
  match bioOpen d bdevs parentDev with
  | none => .error .notFound
  | some parent =>
    match subdeviceGeometry d parent startblock blockCount with
    | .error err => .error err
    | .ok geo => .ok (bdevs ++ [.sub parent subdev startblock blockCount geo])

/-! ### Entries -/

/-- `struct ptable_entry`. -/
structure Entry where
  offset : ℕ
  length : ℕ
  flags : ℕ
  name : List UInt8
  offset_lt : offset < 256 ^ 8
  length_lt : length < 256 ^ 8
  flags_lt : flags < 256 ^ 4
  name_length : name.length = 12
  deriving DecidableEq

/-- The name as `strcmp` sees it. -/
def Entry.cname (e : Entry) : CString := .ofBytes e.name

/-- The 32 bytes of an entry. -/
def Entry.encode (e : Entry) : List UInt8 :=
  le 8 e.offset ++ (le 8 e.length ++ (le 4 e.flags ++ e.name))

def Entry.decode (l : List UInt8) : Entry where
  offset := ofLe (field l 0 8)
  length := ofLe (field l 8 8)
  flags := ofLe (field l 16 4)
  name := field l 20 12
  offset_lt := ofLe_field_lt l 0 8
  length_lt := ofLe_field_lt l 8 8
  flags_lt := ofLe_field_lt l 16 4
  name_length := length_field l 20 12

/-- `struct ptable_header`. -/
structure Header where
  magic : ℕ
  crc32 : ℕ
  generation : ℕ
  totalLength : ℕ
  deriving DecidableEq

def Header.encode (h : Header) : List UInt8 :=
  le 4 h.magic ++ (le 4 h.crc32 ++ (le 4 h.generation ++ le 4 h.totalLength))

def Header.decode (l : List UInt8) : Header where
  magic := ofLe (field l 0 4)
  crc32 := ofLe (field l 4 4)
  generation := ofLe (field l 8 4)
  totalLength := ofLe (field l 12 4)

/-- `PTABLE_MAGIC`, `'1BTP'`. -/
def ptableMagic : ℕ := 0x31425450

/-- `PTABLE_PART_NAME`. -/
def ptablePartName : CString := ⟨[112, 116, 97, 98, 108, 101], by decide⟩

/-- `ptable_length`. -/
def ptableLength (entryCnt : ℕ) : ℕ := 16 + 32 * entryCnt

/-- `PTABLE_HEADER_NUM_ENTRIES`. -/
def Header.numEntries (h : Header) : ℕ := (h.totalLength - 16) / 32

/-- The contents of the device, the registered devices, and `struct ptable_state`. -/
structure State where
  disk : ℕ → UInt8
  bdevs : List Dev
  bdev : Option Dev
  gen : ℕ
  list : List Entry

/-- Only the device is registered and no table is loaded. -/
def State.init (disk : ℕ → UInt8) : State := ⟨disk, [.base], none, 0, []⟩

/-! ### Publishing -/

/-- `validate_entry`. -/
def validateEntry (b : Dev) (e : Entry) : Bool :=
  !(e.offset > u64 (e.offset + e.length)) && !(u64 (e.offset + e.length) > b.totalSize d) &&
    !(e.cname.bytes.length = 0) && !(e.cname.bytes.length ≥ 12)

/-- `ptable_find`. -/
def ptableFind (s : State) (name : CString) : Option Entry :=
  s.list.find? fun e => e.cname = name

/-- `ptable_push_entry`: behind every entry that does not start later. -/
def pushEntry (e : Entry) : List Entry → List Entry
  | [] => [e]
  | x :: l => if x.offset > e.offset then e :: x :: l else x :: pushEntry e l

/-- The checks of `ptable_publish` up to the allocation of the entry. -/
def publishCheck (b : Dev) (s : State) (e : Entry) : Option Err :=
  if !validateEntry d b e then some .notFound
  else if (ptableFind s e.cname).isSome then some .alreadyExists
  else if e.offset % d.blockSize ≠ 0 ∨ e.length % d.blockSize ≠ 0 then some .badState
  else if u64 (e.offset + e.length) ≤ e.offset then some .invalidArgs
  else if u64 (e.offset + e.length) > b.totalSize d then some .invalidArgs
  else none

/-- `ptable_publish`.  When the subdevice is refused, `ptable_unpublish` still
unregisters whatever device has the name. -/
def ptablePublish (s : State) (e : Entry) : State × Option Err :=
  match s.bdev with
  | none => (s, some .badState)
  | some b =>
    match publishCheck d b s e with
    | some err => (s, some err)
    | none =>
      match bioPublishSubdevice d s.bdevs (b.name d) e.cname
          (u32 (e.offset / d.blockSize)) (u32 (e.length / d.blockSize)) with
      | .error err => ({ s with bdevs := bioUnregister d s.bdevs e.cname }, some err)
      | .ok bdevs => ({ s with bdevs := bdevs, list := pushEntry e s.list }, none)

/-- `ptable_reset`. -/
def ptableReset (s : State) : State where
  disk := s.disk
  bdevs := s.list.foldl (fun bdevs e => bioUnregister d bdevs e.cname) s.bdevs
  bdev := none
  gen := 0
  list := []

/-! ### Finding room -/

/-- `(x + mask) & ~mask` for the mask of `2 ^ k`. -/
def alignUp (x k : ℕ) : ℕ := u64 (x + (2 ^ k - 1)) / 2 ^ k * 2 ^ k

/-- One erase region of `ptable_adjust_request_for_erase_geometry`: the offset and
the length of the allocation, if the region has room for it. -/
def adjustInRegion (regionStart regionLen length : ℕ) (allocEnd : Bool) (geo : Geo) :
    Option (ℕ × ℕ) :=
  if !bioDoesOverlap regionStart regionLen geo.start geo.size then none
  else
    let rstart := alignUp (max regionStart geo.start) geo.eraseShift
    let rend := min (u64 (regionStart + regionLen)) (u64 (geo.start + geo.size))
      / 2 ^ geo.eraseShift * 2 ^ geo.eraseShift
    let length := alignUp length geo.eraseShift
    let tmp := u64 (rstart + length)
    if tmp < rstart ∨ rend < tmp then none
    else some (if allocEnd then rend - length else rstart, length)

/-- `ptable_adjust_request_for_erase_geometry`: the offset and the new length. -/
def adjustRequest (b : Dev) (regionStart regionLen length : ℕ) (allocEnd : Bool) :
    Except Err (ℕ × ℕ) :=
  if length > regionLen then .error .tooBig
  else if b.geometry d = [] then
    .ok (if allocEnd then sub64 (u64 (regionStart + regionLen)) length else regionStart, length)
  else
    let geos := if allocEnd then (b.geometry d).reverse else b.geometry d
    match geos.findSome? (adjustInRegion regionStart regionLen length allocEnd) with
    | some r => .ok r
    | none => .error .invalidArgs

/-- The loop of `ptable_allocate` over the gaps before the entries, then the gap
behind the last one.  `best` is what was found so far; allocating from the end
goes on looking, with the length it has found. -/
def allocateLoop (b : Dev) (allocEnd : Bool) :
    List Entry → (regionStart : ℕ) → (best : Option ℕ) → (length : ℕ) → Option ℕ × ℕ
  | [], regionStart, best, length =>
    let regionLen := sub64 (b.totalSize d) regionStart
    if regionLen = 0 then (best, length)
    else
      match adjustRequest d b regionStart regionLen length allocEnd with
      | .ok (offset, length) => (some offset, length)
      | .error _ => (best, length)
  | e :: l, regionStart, best, length =>
    let regionLen := sub64 e.offset regionStart
    let next := u64 (e.offset + e.length)
    if regionLen = 0 then allocateLoop b allocEnd l next best length
    else
      match adjustRequest d b regionStart regionLen length allocEnd with
      | .ok (offset, length) =>
        if allocEnd then allocateLoop b allocEnd l next (some offset) length
        else (some offset, length)
      | .error _ => allocateLoop b allocEnd l next best length

/-- `ptable_allocate`: the offset and the length. -/
def ptableAllocate (s : State) (length : ℕ) (allocEnd : Bool) : Except Err (ℕ × ℕ) :=
  match s.bdev with
  | none => .error .badState
  | some b =>
    let length := alignUp length d.blockShift
    if s.list = [] then adjustRequest d b 0 (b.totalSize d) length allocEnd
    else
      match allocateLoop d b allocEnd s.list 0 none length with
      | (some offset, length) => .ok (offset, length)
      | (none, _) => .error .notFound

/-- `ptable_allocate_at`: the length. -/
def ptableAllocateAt (s : State) (offset length : ℕ) : Except Err ℕ :=
  match s.bdev with
  | none => .error .badState
  | some b =>
    if offset ≥ 2 ^ 63 then .error .invalidArgs
    else if offset % d.blockSize ≠ 0 then .error .invalidArgs
    else
      let length := alignUp length d.blockShift
      if !bioContainsRange 0 (b.totalSize d) offset length then .error .invalidArgs
      else
        match adjustRequest d b offset (sub64 (b.totalSize d) offset) length false with
        | .error _ => .error .invalidArgs
        | .ok (newOffset, length) =>
          if newOffset ≠ offset then .error .invalidArgs
          else if s.list.any fun e => bioDoesOverlap offset length e.offset e.length then
            .error .notFound
          else .ok length

/-! ### Writing and scanning -/

variable (crc32 : ℕ → List UInt8 → ℕ)

/-- The checksum of a header, its own field zero, and the entries after it. -/
def tableCrc (h : Header) (entries : List Entry) : ℕ :=
  entries.foldl (fun c e => u32 (crc32 c e.encode))
    (u32 (crc32 0 { h with crc32 := 0 }.encode))

/-- The buffer `ptable_write` fills. -/
def tableImage (gen : ℕ) (entries : List Entry) : List UInt8 :=
  let h : Header := ⟨ptableMagic, 0, gen, u32 (ptableLength entries.length)⟩
  { h with crc32 := tableCrc crc32 h entries }.encode ++ entries.flatMap Entry.encode

/-- `ptable_write`. -/
def ptableWrite (s : State) : State × Option Err :=
  match s.bdev with
  | none => (s, some .notMounted)
  | some _ =>
    match bioOpen d s.bdevs ptablePartName with
    | none => (s, some .badState)
    | some b =>
      let totalLength := ptableLength s.list.length
      if totalLength > b.totalSize d then (s, some .tooBig)
      else
        let buf := tableImage crc32 s.gen s.list
        let s := { s with gen := u32 (s.gen + 1) }
        let erased := if b.geometry d = [] then (s.disk, b.totalSize d)
          else bioErase d b s.disk 0 (b.totalSize d)
        if erased.2 ≠ b.totalSize d then ({ s with disk := erased.1 }, some .generic)
        else
          let written := bioWrite d b erased.1 0 buf
          ({ s with disk := written.1 },
            if written.2 < totalLength then some .io else none)

/-- The loop of `ptable_scan` over `n` entries from `off` on: the state, and the
checksum and `found_ptable` at its end or the error it bailed out with. -/
def scanEntries (b : Dev) (offset : ℕ) :
    (n off crc : ℕ) → (found : Bool) → State → State × Except Err (ℕ × Bool)
  | 0, _, crc, found, s => (s, .ok (crc, found))
  | n + 1, off, crc, found, s =>
    let e := Entry.decode (bioRead d b s.disk off 32)
    match ptablePublish d s e with
    | (s, some err) => (s, .error err)
    | (s, none) =>
      if e.cname = ptablePartName then
        if e.offset ≠ offset then (s, .error .badState)
        else scanEntries b offset n (off + 32) (u32 (crc32 crc e.encode)) true s
      else scanEntries b offset n (off + 32) (u32 (crc32 crc e.encode)) found s

/-- `ptable_scan` after its header is read. -/
def scanTable (b : Dev) (offset : ℕ) (h : Header) (s : State) : State × Option Err :=
  if h.magic ≠ ptableMagic then (s, some .notFound)
  else if h.totalLength < 16 then (s, some .notFound)
  else if h.totalLength > d.blockSize then (s, some .notFound)
  else if (h.totalLength - 16) % 32 ≠ 0 then (s, some .notFound)
  else
    match scanEntries d crc32 b offset h.numEntries (offset + 16)
        (u32 (crc32 0 { h with crc32 := 0 }.encode)) false s with
    | (s, .error err) => (s, some err)
    | (s, .ok (crc, found)) =>
      if h.crc32 ≠ crc then (s, some .crcFail)
      else if found then (s, none) else (s, some .notFound)

/-- A failed call resets the table. -/
def resetOnError (r : State × Option Err) : State × Option Err :=
  if r.2.isSome then (ptableReset d r.1, r.2) else r

/-- `ptable_scan`. -/
def ptableScan (s : State) (bdevName : CString) (offset : ℕ) : State × Option Err :=
  let s := ptableReset d s
  match bioOpen d s.bdevs bdevName with
  | none => resetOnError d (s, some .notFound)
  | some b =>
    let s := { s with bdev := some b }
    let bytes := bioRead d b s.disk offset 16
    -- a short read ends the scan with the number of bytes as its return value
    if bytes.length < 16 then (s, none)
    else resetOnError d (scanTable d crc32 b offset (.decode bytes) s)

/-! ### The interface -/

/-- The entry that `ptable_create_default` and `ptable_add` fill in. -/
def Entry.make (offset length : ℕ) (name : CString) : Entry where
  offset := u64 offset
  length := u64 length
  flags := 0
  name := (name.padded 12).take 12
  offset_lt := u64_lt offset
  length_lt := u64_lt length
  flags_lt := Nat.pow_pos (Nat.succ_pos 255)
  name_length := name.length_take_padded 12

/-- `ptable_create_default`. -/
def ptableCreateDefault (s : State) (bdevName : CString) (offset : ℕ) : State × Option Err :=
  let s := ptableReset d s
  match bioOpen d s.bdevs bdevName with
  | none => (s, some .notFound)
  | some b =>
    let s := { s with bdev := some b }
    match ptableAllocateAt d s offset (ptableLength 16) with
    | .error err => resetOnError d (s, some err)
    | .ok len =>
      match ptablePublish d s (.make offset len ptablePartName) with
      | (s, some err) => resetOnError d (s, some err)
      | (s, none) => resetOnError d (ptableWrite d crc32 s)

/-- `ptable_remove`. -/
def ptableRemove (s : State) (name : CString) : State × Option Err :=
  match s.bdev with
  | none => (s, some .notMounted)
  | some _ =>
    if name = ptablePartName then (s, some .notAllowed)
    else if (ptableFind s name).isSome then
      ptableWrite d crc32 { s with
        bdevs := bioUnregister d s.bdevs name
        list := s.list.eraseP fun e => e.cname = name }
    else (s, some .notFound)

/-- `ptable_add`; the flags it stores are zero. -/
def ptableAdd (s : State) (name : CString) (minLen : ℕ) (allocEnd : Bool) : State × Option Err :=
  match s.bdev with
  | none => (s, some .notMounted)
  | some _ =>
    if name.bytes.length > 11 then (s, some .invalidArgs)
    else
      match ptableAllocate d s minLen allocEnd with
      | .error err => (s, some err)
      | .ok (offset, length) =>
        match ptablePublish d s (.make offset length name) with
        | (s, some err) => (s, some err)
        | (s, none) => ptableWrite d crc32 s

inductive Act where
  | createDefault (bdevName : CString) (offset : ℕ)
  | add (name : CString) (minLen : ℕ) (allocEnd : Bool)
  | remove (name : CString)

/-- One call, whatever it returns. -/
def ptableStep (s : State) : Act → Option State
  | .createDefault bdevName offset => some (ptableCreateDefault d crc32 s bdevName offset).1
  | .add name minLen allocEnd => some (ptableAdd d crc32 s name minLen allocEnd).1
  | .remove name => some (ptableRemove d crc32 s name).1

end Ptable
end LittleKernel
