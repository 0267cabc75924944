/-
# The SPI flash file system: `lib/fs/spifs/spifs.c`

A flat file system of contiguous files.  The table of contents (ToC) is kept twice,
from the first page of the device upwards and from the last page downwards, and is
written to the two places in turn:

    slot 0                 header: magic, version, number of entries, generation
    slot 1 .. n            the files, in ascending order of their pages, then empty slots
    slot n + 1             footer: CRC-32 of the slots before it

with 32 bytes a slot and whole pages of slots.  The first and the last file of the
list are the two tables themselves.

A page is a function from offsets to bytes, the device a function from page numbers
to pages.  A write to the device succeeds; a read of a page the device does not have
is an error.  `none` is a `DEBUG_ASSERT` that stops the machine.  The page buffer
`spifs->page` is filled before each use and is local here, and the directory cookies
are left out.
-/

import LittleKernel.Cksum
import LittleKernel.Include
import LittleKernel.Lib.Fields
import LittleKernel.Lib.Machine

namespace LittleKernel
namespace Spifs

open Bytes Word

/-! ### The format -/

def fsVersion : ℕ := 1

def fsMagic : ℕ := 0x53504653

def spifsEntryLength : ℕ := 32

def maxFilenameLength : ℕ := 20

def corruptToc : ℕ := 0

def noOpenRuns : ℕ := 0

/-- `toc_position_t`. -/
inductive TocPosition
  | front
  | back
  deriving DecidableEq

/-- The other copy. -/
def TocPosition.other : TocPosition → TocPosition
  | .front => .back
  | .back => .front

/-- `addr + toc_position`, on page numbers. -/
def TocPosition.advance : TocPosition → ℕ → ℕ
  | .front, addr => u32 (addr + 1)
  | .back, addr => sub32 addr 1

/-- What `get_device_page_info` finds: a page size that is a power of two, and a
`uint32_t` number of pages. -/
structure Geometry where
  pageShift : ℕ
  totalSize : ℕ
  eraseByte : UInt8
  pageShift_le : pageShift ≤ 31
  pageCount_lt : totalSize / 2 ^ pageShift < 2 ^ 32

def Geometry.pageSize (g : Geometry) : ℕ := 2 ^ g.pageShift

def Geometry.pageCount (g : Geometry) : ℕ := g.totalSize / g.pageSize

/-- A page of the device. -/
abbrev Page := ℕ → UInt8

/-- What the pages of the device hold. -/
abbrev Device := ℕ → Page

/-- `toc_header_t`, without the reserved bytes. -/
structure TocHeader where
  magic : ℕ
  version : ℕ
  numEntries : ℕ
  generation : ℕ
  deriving DecidableEq

def TocHeader.bytes (h : TocHeader) : List UInt8 :=
  le 4 h.magic ++ (le 4 h.version ++ (le 4 h.numEntries ++ (le 4 h.generation ++
    List.replicate 16 0)))

def TocHeader.ofBytes (l : List UInt8) : TocHeader where
  magic := ofLe (field l 0 4)
  version := ofLe (field l 4 4)
  numEntries := ofLe (field l 8 4)
  generation := ofLe (field l 12 4)

/-- `toc_file_t`. -/
@[ext]
structure TocFile where
  pageIdx : ℕ
  length : ℕ
  capacity : ℕ
  filename : List UInt8
  pageIdx_lt : pageIdx < 2 ^ 32
  length_lt : length < 2 ^ 32
  capacity_lt : capacity < 2 ^ 32
  filename_length : filename.length = maxFilenameLength

instance : DecidableEq TocFile := fun _ _ => decidable_of_iff' _ TocFile.ext_iff

def TocFile.bytes (f : TocFile) : List UInt8 :=
  le 4 f.pageIdx ++ (le 4 f.length ++ (le 4 f.capacity ++ f.filename))

def TocFile.ofBytes (l : List UInt8) : TocFile where
  pageIdx := ofLe (field l 0 4)
  length := ofLe (field l 4 4)
  capacity := ofLe (field l 8 4)
  filename := field l 12 20
  pageIdx_lt := ofLe_field_lt l 0 4
  length_lt := ofLe_field_lt l 4 4
  capacity_lt := ofLe_field_lt l 8 4
  filename_length := length_field l 12 20

/-- The slot that `spifs_commit_toc` copies where the list of files has ended. -/
def emptyEntry : List UInt8 := List.replicate 32 0

/-- `toc_footer_t` with the given checksum. -/
def tocFooter (checksum : UInt32) : List UInt8 := List.replicate 28 0 ++ le 4 checksum.toNat

/-- The checksum of a footer. -/
def footerChecksum (l : List UInt8) : ℕ := ofLe (field l 28 4)

/-- `spifs_t`, what of it outlives a call. -/
structure SpifsT where
  generation : ℕ
  numEntries : ℕ
  tocPosition : TocPosition
  files : List TocFile
  deriving DecidableEq

inductive Status
  | noError
  | errInvalidArgs
  | errNotSupported
  | errBadPath
  | errTooBig
  | errAlreadyExists
  | errNotFound
  | errOutOfRange
  | errCrcFail
  | errBadState
  | errIo
  deriving DecidableEq

/-! ### The list of files -/

/-- The files of the list that are not one of the tables. -/
def middle (files : List TocFile) : List TocFile := files.tail.dropLast

/-- `strncmp(name, file->metadata.filename, MAX_FILENAME_LENGTH) == 0`. -/
def TocFile.named (f : TocFile) (name : CString) : Bool :=
  name.bytes.take maxFilenameLength == (CString.ofBytes f.filename).bytes

/-- `find_file`: the position in the list. -/
def findFile (files : List TocFile) (name : CString) : Option ℕ :=
  ((middle files).findIdx? fun f => f.named name).map (· + 1)

/-- The number of pages a file occupies. -/
def TocFile.pages (g : Geometry) (f : TocFile) : ℕ := f.capacity / g.pageSize

/-- `find_open_run`. -/
def findOpenRun (g : Geometry) : List TocFile → ℕ → ℕ
  | file :: next :: rest, requestedLength =>
    let fileEndPage := u32 (file.pageIdx + file.pages g)
    let availablePages := sub32 next.pageIdx fileEndPage
    let availableBytes := u32 (availablePages * g.pageSize)
    if requestedLength ≤ availableBytes then fileEndPage
    else findOpenRun g (next :: rest) requestedLength
  | _, _ => noOpenRuns

/-- `consistency_check`. -/
def consistencyCheck (g : Geometry) : List TocFile → Bool
  | file :: next :: rest =>
    let fileEndPage := sub32 (u32 (file.pageIdx + file.pages g)) 1
    if next.pageIdx ≤ fileEndPage then false else consistencyCheck g (next :: rest)
  | _ => true

/-- `spifs_add_ascending`. -/
def spifsAddAscending : List TocFile → TocFile → List TocFile
  | [], target => [target]
  | file :: rest, target =>
    if target.pageIdx < file.pageIdx then target :: file :: rest
    else file :: spifsAddAscending rest target

/-! ### Pages -/

/-- `spifs_read_page`. -/
def spifsReadPage (g : Geometry) (dev : Device) (pageAddr : ℕ) : Option Page :=
  if pageAddr < g.pageCount then some (dev pageAddr) else none

/-- `spifs_write_page`. -/
def spifsWritePage (dev : Device) (pageAddr : ℕ) (page : Page) : Device :=
  Function.update dev pageAddr page

/-- The first page of a table. -/
def tocPage (g : Geometry) : TocPosition → ℕ
  | .front => 0
  | .back => sub32 g.pageCount 1

/-- `cursor_t`; `data` is an offset into the page. -/
structure Cursor where
  pageId : ℕ
  data : ℕ
  page : Page

def cursorInit (g : Geometry) (dev : Device) (pageId : ℕ) : Option Cursor :=
  (spifsReadPage g dev pageId).map fun page => ⟨pageId, 0, page⟩

def cursorGet (c : Cursor) : List UInt8 := Memory.window c.page c.data spifsEntryLength

def cursorAdvance (g : Geometry) (dev : Device) (direction : TocPosition) (c : Cursor) :
    Option Cursor :=
  if c.data + spifsEntryLength = g.pageSize then
    cursorInit g dev (direction.advance c.pageId)
  else some { c with data := c.data + spifsEntryLength }

/-! ### Writing a table -/

/-- The variables of `spifs_commit_toc`, with the pages it has written so far. -/
structure Commit where
  cursor : ℕ
  page : Page
  tocPageAddr : ℕ
  writes : List (ℕ × Page)
  crc : UInt32

/-- A slot is copied to the page and added to the checksum. -/
def Commit.put (c : Commit) (entry : List UInt8) : Commit :=
  { c with
    crc := Cksum.crc32 c.crc entry
    page := Memory.store c.page c.cursor entry
    cursor := c.cursor + spifsEntryLength }

/-- A full page is written. -/
def Commit.flush (target : TocPosition) (c : Commit) : Commit :=
  { c with
    writes := c.writes ++ [(c.tocPageAddr, c.page)]
    tocPageAddr := target.advance c.tocPageAddr
    cursor := 0 }

/-- The loop of `spifs_commit_toc`. -/
def commitEntries (g : Geometry) (target : TocPosition) : ℕ → List TocFile → Commit → Commit
  | 0, _, c => c
  | n + 1, files, c =>
    let c := if c.cursor = g.pageSize then c.flush target else c
    match files with
    | file :: rest => commitEntries g target n rest (c.put file.bytes)
    | [] => commitEntries g target n [] (c.put emptyEntry)

/-- The page writes of `spifs_commit_toc`, in their order. -/
def commitWrites (lvl : ℕ) (g : Geometry) (s : SpifsT) : Option (List (ℕ × Page)) :=
  let target := s.tocPosition.other
  let header : TocHeader := ⟨fsMagic, fsVersion, s.numEntries, u32 (s.generation + 1)⟩
  let c : Commit := Commit.put ⟨0, fun _ => 0, tocPage g target, [], 0⟩ header.bytes
  let c := commitEntries g target s.numEntries s.files c
  if DebugAssert lvl (c.cursor = g.pageSize - spifsEntryLength) then
    some (c.writes ++ [(c.tocPageAddr, Memory.store c.page c.cursor (tocFooter c.crc))])
  else none

/-- The device after page writes. -/
def applyWrites (dev : Device) (writes : List (ℕ × Page)) : Device :=
  writes.foldl (fun dev w => spifsWritePage dev w.1 w.2) dev

/-- `spifs_commit_toc`. -/
def spifsCommitToc (lvl : ℕ) (g : Geometry) (s : SpifsT) (dev : Device) : Option (SpifsT × Device) :=
  (commitWrites lvl g s).map fun writes =>
    ({ s with generation := u32 (s.generation + 1), tocPosition := s.tocPosition.other },
      applyWrites dev writes)

/-! ### Reading a table -/

/-- The loop of `get_toc_generation`. -/
def crcEntries (g : Geometry) (dev : Device) (pos : TocPosition) :
    ℕ → Cursor → UInt32 → Option (Cursor × UInt32)
  | 0, c, crc => some (c, crc)
  | n + 1, c, crc =>
    (cursorAdvance g dev pos c).bind fun c =>
      crcEntries g dev pos n c (Cksum.crc32 crc (cursorGet c))

/-- The checksums of a table, as computed and as stored, where all of it can be read. -/
def tocChecksums (g : Geometry) (dev : Device) (pos : TocPosition) : Option (ℕ × ℕ) :=
  (cursorInit g dev (tocPage g pos)).bind fun c =>
    (crcEntries g dev pos (TocHeader.ofBytes (cursorGet c)).numEntries c
      (Cksum.crc32 0 (cursorGet c))).bind fun r =>
        (cursorAdvance g dev pos r.1).map fun c => (r.2.toNat, footerChecksum (cursorGet c))

/-- `get_toc_generation`. -/
def getTocGeneration (g : Geometry) (dev : Device) (pos : TocPosition) : ℕ :=
  match cursorInit g dev (tocPage g pos) with
  | none => corruptToc
  | some c =>
    let header := TocHeader.ofBytes (cursorGet c)
    if header.magic ≠ fsMagic then corruptToc
    else if header.version ≠ fsVersion then corruptToc
    else
      match tocChecksums g dev pos with
      | none => corruptToc
      | some (crc, checksum) => if checksum ≠ crc then corruptToc else header.generation

/-- The loop of `spifs_mount`. -/
def mountEntries (g : Geometry) (dev : Device) (pos : TocPosition) :
    ℕ → Cursor → List TocFile → Option (List TocFile)
  | 0, _, files => some files
  | n + 1, c, files =>
    (cursorAdvance g dev pos c).bind fun c =>
      let entry := TocFile.ofBytes (cursorGet c)
      mountEntries g dev pos n c (if entry.capacity = 0 then files else files ++ [entry])

/-- `spifs_mount`. -/
def spifsMount (g : Geometry) (dev : Device) : Except Status SpifsT :=
  let front := getTocGeneration g dev .front
  let back := getTocGeneration g dev .back
  if front = corruptToc ∧ back = corruptToc then .error .errCrcFail
  else
    let pos : TocPosition := if back < front then .front else .back
    match cursorInit g dev (tocPage g pos) with
    | none => .error .errIo
    | some c =>
      let numEntries := (TocHeader.ofBytes (cursorGet c)).numEntries
      match mountEntries g dev pos numEntries c [] with
      | none => .error .errIo
      | some files =>
        if consistencyCheck g files then .ok ⟨max front back, numEntries, pos, files⟩
        else .error .errBadState

/-! ### Formatting -/

/-- One of the two tables, as a file of `toc_pages` pages. -/
def tocEntry (g : Geometry) (tocPages pageIdx : ℕ) (label : CString) : TocFile where
  pageIdx := u32 pageIdx
  length := u32 (tocPages * g.pageSize)
  capacity := u32 (tocPages * g.pageSize)
  filename := (label.padded maxFilenameLength).take maxFilenameLength
  pageIdx_lt := u32_lt _
  length_lt := u32_lt _
  capacity_lt := u32_lt _
  filename_length := label.length_take_padded maxFilenameLength

/-- `FRONT_TOC_LABEL`. -/
def frontTocLabel : CString := ⟨"front-toc".toList.map fun c => c.toNat.toUInt8, by decide⟩

/-- `BACK_TOC_LABEL`. -/
def backTocLabel : CString := ⟨"back-toc".toList.map fun c => c.toNat.toUInt8, by decide⟩

/-- `f_toc` of `spifs_format`. -/
def frontToc (g : Geometry) (tocPages : ℕ) : TocFile := tocEntry g tocPages 0 frontTocLabel

/-- `b_toc` of `spifs_format`. -/
def backToc (g : Geometry) (tocPages : ℕ) : TocFile :=
  tocEntry g tocPages (sub32 g.pageCount tocPages) backTocLabel

/-- `spifs_format`. -/
def spifsFormat (lvl : ℕ) (g : Geometry) (dev : Device) (tocPages : ℕ) :
    Option (Device × Status) :=
  if g.pageSize % spifsEntryLength ≠ 0 then some (dev, .errNotSupported)
  else if g.totalSize % g.pageSize ≠ 0 then some (dev, .errNotSupported)
  else
    let numEntries := u32 (tocPages * (g.pageSize / spifsEntryLength))
    if numEntries ≤ 4 then some (dev, .errTooBig)
    else
      let s : SpifsT := ⟨1, sub32 numEntries 2, .front,
        spifsAddAscending (spifsAddAscending [] (frontToc g tocPages)) (backToc g tocPages)⟩
      (spifsCommitToc lvl g s dev).bind fun r =>
        (spifsCommitToc lvl g r.1 r.2).map fun r => (r.2, .noError)

/-! ### Files -/

/-- `trim_name`. -/
def trimName (name : CString) : CString where
  bytes := (name.bytes.dropWhile (· = 32)).dropWhile (· = 47)
  nonul h := name.nonul ((List.dropWhile_sublist _).mem ((List.dropWhile_sublist _).mem h))

/-- `ROUNDUP(a, b)` for a power of two, on `uint32_t`. -/
def roundup (a b : ℕ) : ℕ := u32 ((a + (b - 1)) / b * b)

/-- The checks of `spifs_create` on its arguments; `name` is trimmed. -/
def createCheck (s : SpifsT) (name : CString) (len : ℕ) : Status :=
  if 47 ∈ name.bytes then .errNotSupported
  else if maxFilenameLength ≤ name.bytes.length then .errBadPath
  else if 0xFFFFFFFF < len then .errTooBig
  else if (findFile s.files name).isSome then .errAlreadyExists
  else .noError

/-- The entry that `spifs_create` adds. -/
def newFile (pageIdx len capacity : ℕ) (name : CString) : TocFile where
  pageIdx := u32 pageIdx
  length := u32 len
  capacity := u32 capacity
  filename := (name.padded maxFilenameLength).take maxFilenameLength
  pageIdx_lt := u32_lt _
  length_lt := u32_lt _
  capacity_lt := u32_lt _
  filename_length := name.length_take_padded maxFilenameLength

/-- `bio_erase` of whole pages. -/
def erasePages (g : Geometry) (dev : Device) (first count : ℕ) : Device := fun p =>
  if first ≤ p ∧ p < first + count then fun _ => g.eraseByte else dev p

/-- `spifs_create`. -/
def spifsCreate (lvl : ℕ) (g : Geometry) (s : SpifsT) (dev : Device) (name : CString) (len : ℕ) :
    Option (SpifsT × Device × Status) :=
  let name := trimName name
  if createCheck s name len ≠ .noError then some (s, dev, createCheck s name len)
  else if DebugAssert lvl (s.files.length ≤ s.numEntries) then
    if s.numEntries ≤ s.files.length then some (s, dev, .errTooBig)
    else
      let capacity := if len = 0 then g.pageSize else roundup len g.pageSize
      let openRun := findOpenRun g s.files capacity
      if openRun = noOpenRuns then some (s, dev, .errTooBig)
      else
        -- the address of the erase is a 32-bit product
        let dev := erasePages g dev (u32 (openRun * g.pageSize) / g.pageSize) (capacity / g.pageSize)
        let s := { s with files := spifsAddAscending s.files (newFile openRun len capacity name) }
        (spifsCommitToc lvl g s dev).map fun r => (r.1, r.2, .noError)
  else none

/-- `spifs_remove`. -/
def spifsRemove (lvl : ℕ) (g : Geometry) (s : SpifsT) (dev : Device) (name : CString) :
    Option (SpifsT × Device × Status) :=
  match findFile s.files (trimName name) with
  | none => some (s, dev, .errNotFound)
  | some i =>
    (spifsCommitToc lvl g { s with files := s.files.eraseIdx i } dev).map fun r =>
      (r.1, r.2, .noError)

/-- The file with another length. -/
def TocFile.withLength (f : TocFile) (len : ℕ) : TocFile :=
  { f with length := u32 len, length_lt := u32_lt len }

/-- `spifs_truncate`, on the file at position `i` of the list. -/
def spifsTruncate (lvl : ℕ) (g : Geometry) (s : SpifsT) (dev : Device) (i len : ℕ) :
    Option (SpifsT × Device × Status) :=
  match s.files[i]? with
  | none => none
  | some file =>
    if file.length < len then some (s, dev, .errInvalidArgs)
    else
      let s := { s with files := s.files.set i (file.withLength len) }
      (spifsCommitToc lvl g s dev).map fun r => (r.1, r.2, .noError)

/-- The whole pages of `spifs_write`: the loop runs `n = len / page_size` times. -/
def writeFullPages (g : Geometry) : ℕ → Device → ℕ → List UInt8 → Device
  | 0, dev, _, _ => dev
  | n + 1, dev, targetPageId, buf =>
    writeFullPages g n
      (spifsWritePage dev targetPageId (Memory.store (fun _ => 0) 0 (buf.take g.pageSize)))
      (u32 (targetPageId + 1)) (buf.drop g.pageSize)

/-- `spifs_write` behind the leading partial page. -/
def writeRest (g : Geometry) (dev : Device) (targetPageId : ℕ) (buf : List UInt8) : Device :=
  -- internal full pages
  let n := buf.length / g.pageSize
  let dev := writeFullPages g n dev targetPageId buf
  let targetPageId := u32 (targetPageId + n)
  -- trailing partial page
  let buf := buf.drop (n * g.pageSize)
  if buf = [] then dev
  else spifsWritePage dev targetPageId (Memory.store (dev targetPageId) 0 buf)

/-- The pages that `spifs_write` changes, for the bytes `buf` at `start_addr`. -/
def writePages (g : Geometry) (dev : Device) (startAddr : ℕ) (buf : List UInt8) : Device :=
  let targetPageId := startAddr / g.pageSize
  let pageOffset := startAddr % g.pageSize
  if pageOffset = 0 then writeRest g dev targetPageId buf
  else
    -- leading partial page
    let nBytes := min buf.length (sub32 (roundup startAddr g.pageSize) startAddr)
    let page := Memory.store (dev targetPageId) pageOffset (buf.take nBytes)
    writeRest g (spifsWritePage dev targetPageId page) (u32 (targetPageId + 1)) (buf.drop nBytes)

/-- `spifs_write`, on the file at position `i` of the list.  `off` is an `off_t` and a
buffer is shorter than half the address space, so `off + len` does not wrap. -/
def spifsWrite (lvl : ℕ) (g : Geometry) (s : SpifsT) (dev : Device) (i : ℕ) (off : ℤ)
    (buf : List UInt8) : Option (SpifsT × Device × Status) :=
  match s.files[i]? with
  | none => none
  | some file =>
    if off < 0 then some (s, dev, .errInvalidArgs)
    else
      let off := off.toNat
      if file.capacity < off + buf.length then some (s, dev, .errOutOfRange)
      else
        let dev := writePages g dev (u32 (off + file.pageIdx * g.pageSize)) buf
        if file.length < off + buf.length then
          let s := { s with files := s.files.set i (file.withLength (off + buf.length)) }
          (spifsCommitToc lvl g s dev).map fun r => (r.1, r.2, .noError)
        else some (s, dev, .noError)

end Spifs
end LittleKernel
