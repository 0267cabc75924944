/-
# Reading a partition for verified boot

`exynos_read_from_partition` of `platform/exynos9630/security/avb_ops.c`: bytes of a partition
are read through a buffer of one sector, as a partial first sector, whole sectors and a
partial last one.

`tmp_num_read` is the size of the first part and, behind a loop over whole sectors, that of
the last one; without such a loop it still is the size of the first part when the last sector
is copied.  What `new_read` returns is not looked at, and nothing is compared with the size of
the partition.

A partition is where its first sector lies on the device, before `part_get_start_in_secs`
makes a `u32` of it, and how many bytes it has.  Printing and `bio_close` are left out; a
device that does not open is the fault of the first `dev->new_read`.
-/

import LittleKernel.Lib.Memory
import LittleKernel.Lib.Word

namespace LittleKernel
namespace Avb

open Memory Word

/-- `PART_SECTOR_SIZE`. -/
def partSectorSize : ℕ := 512

/-- `AvbIOResult`. -/
inductive IoResult where
  | ok
  | errorOom
  | errorIo
  | errorNoSuchPartition
  deriving DecidableEq

/-- A partition of the device. -/
structure Partition where
  startInSecs : ℕ
  sizeInBytes : ℕ

/-- What a read meets: the boot device, `bio_open`, `memalign`, `part_get`, whether the device
does read number `k` of a sector, and what is in the buffer when it does not. -/
structure PartEnv where
  ufs : Bool
  opened : Bool
  memory : Bool
  part : Option Partition
  reads : (k sector : ℕ) → Bool
  junk : ℕ → ℕ → UInt8

/-- The buffer of the caller, `tmp_buff`, and the reads made. -/
structure PartSt where
  buffer : ℕ → UInt8
  tmpBuff : ℕ → UInt8
  calls : List (ℕ × Bool)

/-- What a read leaves. -/
structure PartRead where
  result : IoResult
  st : PartSt
  outNumRead : Option ℕ

section Model

variable (e : PartEnv) (disk : ℕ → UInt8)

/-- `dev->new_read(dev, tmp_buff, block, 1)`. -/
def newRead (s : PartSt) (block : ℕ) : PartSt :=
  let done := e.reads s.calls.length block
  { s with
    tmpBuff :=
      if done then copy s.tmpBuff 0 disk (partSectorSize * block) partSectorSize
      else e.junk s.calls.length
    calls := s.calls ++ [(block, done)] }

/-- A sector is read, and `n` bytes of it from `off` on copied to `p`. -/
def sectorTo (s : PartSt) (block p off n : ℕ) : PartSt :=
  let s := newRead e disk s block
  { s with buffer := copy s.buffer p s.tmpBuff off n }

/-- The loop over the whole sectors. -/
def middleBlocks (blkstart : ℕ) : (n i p : ℕ) → PartSt → PartSt
  | 0, _, _, s => s
  | n + 1, i, p, s =>
    middleBlocks blkstart n (i + 1) (p + partSectorSize)
      (sectorTo e disk s (u32 (blkstart + i)) p 0 partSectorSize)

/-- `tmp_num_read` of the first sector. -/
def firstBytes (offset numBytes : ℕ) : ℕ :=
  if partSectorSize - offset % partSectorSize < numBytes then
    partSectorSize - offset % partSectorSize
  else numBytes

/-- `blknum`. -/
def wholeSectors (offset numBytes : ℕ) : ℕ :=
  u32 ((numBytes - firstBytes offset numBytes) / partSectorSize)

/-- `tmp_num_bytes` behind the whole sectors; their size is computed in 32 bits. -/
def leftBytes (offset numBytes : ℕ) : ℕ :=
  let tmpNumBytes := numBytes - firstBytes offset numBytes
  if wholeSectors offset numBytes ≠ 0 then
    tmpNumBytes - u32 (partSectorSize * wholeSectors offset numBytes)
  else tmpNumBytes

/-- `tmp_num_read` there. -/
def tailBytes (offset numBytes : ℕ) : ℕ :=
  if wholeSectors offset numBytes ≠ 0 then u32 (leftBytes offset numBytes)
  else firstBytes offset numBytes

/-- The reads of a request. -/
def readSectors (start : ℕ) (s : PartSt) (offset numBytes : ℕ) : PartSt :=
  let first := firstBytes offset numBytes
  let whole := wholeSectors offset numBytes
  let blkstart := u32 (u32 start + u32 (offset / partSectorSize))
  let s := sectorTo e disk s blkstart 0 (offset % partSectorSize) first
  let blkstart := u32 (blkstart + 1)
  let s := middleBlocks e disk blkstart whole 0 first s
  if leftBytes offset numBytes ≠ 0 then
    sectorTo e disk s (u32 (blkstart + whole)) (first + partSectorSize * whole) 0
      (tailBytes offset numBytes)
  else s

/-- `exynos_read_from_partition`, with `heap` in the memory `tmp_buff` is in; `none` is the
fault of a device that does not open. -/
def exynosReadFromPartition (heap buffer : ℕ → UInt8) (offset numBytes : ℕ) : Option PartRead :=
  let s : PartSt := ⟨buffer, heap, []⟩
  if e.ufs = false then some ⟨.errorIo, s, none⟩
  else
    match e.part with
    | none => some ⟨.errorNoSuchPartition, s, none⟩
    | some part =>
      if e.memory = false then some ⟨.errorOom, s, none⟩
      else if e.opened = false then none
      else some ⟨.ok, readSectors e disk part.startInSecs s offset numBytes, some numBytes⟩

end Model

/-! ### What a read is for -/

section Spec

variable (e : PartEnv) (part : Partition) (offset numBytes : ℕ)

/-- Everything a read needs is there but the sectors. -/
structure PartEnv.Ready (e : PartEnv) (part : Partition) : Prop where
  ufs : e.ufs = true
  opened : e.opened = true
  memory : e.memory = true
  part_eq : e.part = some part

/-- The range is in the partition. -/
def Partition.Inside : Prop := offset + numBytes ≤ part.sizeInBytes

/-- What is asked of a read: when the range is in the partition and every read of the device
succeeds, the buffer holds the bytes of the range, nothing is written behind them and the size
is reported; when one fails or the range leaves the partition, the result is not
`AVB_IO_RESULT_OK`. -/
structure PartReadExact : Prop where
  full : ∀ part, e.Ready part → part.Inside offset numBytes → ∀ disk heap buffer r,
    exynosReadFromPartition e disk heap buffer offset numBytes = some r →
    (∀ c ∈ r.st.calls, c.2 = true) → r.result = .ok ∧ r.outNumRead = some numBytes ∧
      r.st.buffer = copy buffer 0 disk (partSectorSize * part.startInSecs + offset) numBytes
  closed : ∀ part, e.part = some part → ∀ disk heap buffer r,
    exynosReadFromPartition e disk heap buffer offset numBytes = some r →
    (∃ c ∈ r.st.calls, c.2 = false) ∨ ¬part.Inside offset numBytes → r.result ≠ .ok

/-- The number of sectors that are read. -/
def partReads : ℕ :=
  1 + wholeSectors offset numBytes + if leftBytes offset numBytes ≠ 0 then 1 else 0

/-- The `k`-th of them. -/
def partSector (k : ℕ) : ℕ := u32 (part.startInSecs + offset / partSectorSize + k)

/-- The device reads them all. -/
def PartEnv.ReadsAll : Prop :=
  ∀ k < partReads offset numBytes, e.reads k (partSector part offset k) = true

/-- There is no partial last sector, or a whole one before it, or as many bytes of it are asked
for as of the first sector. -/
def TailRight : Prop :=
  numBytes ≤ firstBytes offset numBytes ∨
    firstBytes offset numBytes + partSectorSize ≤ numBytes ∨
      numBytes = 2 * firstBytes offset numBytes

/-- The sectors have 32-bit numbers. -/
def Partition.Addressable : Prop :=
  numBytes = 0 ∨ partSectorSize * part.startInSecs + offset + numBytes ≤ partSectorSize * 2 ^ 32

end Spec

/-! ### The sizes of the parts -/

section Sizes

variable {offset numBytes : ℕ}

theorem firstBytes_le : firstBytes offset numBytes ≤ numBytes := by
  unfold firstBytes
  split <;> omega

/-- The first part stays in its sector. -/
theorem firstBytes_fits : offset % partSectorSize + firstBytes offset numBytes ≤ partSectorSize := by
  have := Nat.mod_lt offset (show 0 < partSectorSize by decide)
  unfold firstBytes
  split <;> omega

theorem firstBytes_pos (h : 0 < numBytes) : 0 < firstBytes offset numBytes := by
  have := Nat.mod_lt offset (show 0 < partSectorSize by decide)
  unfold firstBytes
  split <;> omega

/-- With more to come, the first part ends with its sector. -/
theorem firstBytes_of_lt (h : firstBytes offset numBytes < numBytes) :
    offset % partSectorSize + firstBytes offset numBytes = partSectorSize := by
  have := Nat.mod_lt offset (show 0 < partSectorSize by decide)
  by_cases hlt : partSectorSize - offset % partSectorSize < numBytes
  · rw [firstBytes, if_pos hlt]
    omega
  · rw [firstBytes, if_neg hlt] at h
    omega

/-- Behind whole sectors, the last part is what is left of the last sector. -/
theorem tailBytes_of_whole (h : wholeSectors offset numBytes ≠ 0) :
    tailBytes offset numBytes = (numBytes - firstBytes offset numBytes) % partSectorSize := by
  rw [tailBytes, if_pos h, leftBytes, if_pos h, wholeSectors]
  generalize numBytes - firstBytes offset numBytes = left
  simp only [partSectorSize, u32]
  omega

theorem tailBytes_le : tailBytes offset numBytes ≤ partSectorSize := by
  by_cases h : wholeSectors offset numBytes = 0
  · rw [tailBytes, if_neg (not_not.2 h)]
    have := @firstBytes_fits offset numBytes
    omega
  · rw [tailBytes_of_whole h]
    exact (Nat.mod_lt _ (by decide)).le

end Sizes

/-! ### The reads -/

section Reads

variable {e : PartEnv} {part : Partition} {offset numBytes : ℕ} {disk : ℕ → UInt8} {s : PartSt}
  {block p off n k : ℕ}

/-- The first `k` reads were made. -/
def CallsTo (e : PartEnv) (part : Partition) (offset k : ℕ) (s : PartSt) : Prop :=
  s.calls = (List.range k).map fun i =>
    (partSector part offset i, e.reads i (partSector part offset i))

theorem CallsTo.sectorTo (hs : CallsTo e part offset k s) (hblock : block = partSector part offset k) :
    CallsTo e part offset (k + 1) (sectorTo e disk s block p off n) := by
  have hlen : s.calls.length = k := by rw [hs, List.length_map, List.length_range]
  rw [CallsTo, List.range_succ, List.map_append, ← hs]
  simp [Avb.sectorTo, newRead, hlen, hblock]

/-- Adding a number of sectors to a sector. -/
theorem partSector_add (part : Partition) (offset k i : ℕ) :
    u32 (partSector part offset k + i) = partSector part offset (k + i) := by
  simp only [partSector, u32]
  omega

theorem CallsTo.middleBlocks {i : ℕ} (hs : CallsTo e part offset (k + i) s) :
    CallsTo e part offset (k + i + n) (middleBlocks e disk (partSector part offset k) n i p s) := by
  induction n generalizing i p s with
  | zero => exact hs
  | succ n ih =>
    have hnext := ih (i := i + 1) (p := p + partSectorSize)
      (@CallsTo.sectorTo _ _ _ disk _ _ p 0 partSectorSize _ hs
        (partSector_add part offset k i))
    rwa [show k + (i + 1) + n = k + i + (n + 1) by omega] at hnext

theorem blkstart_eq (part : Partition) (offset : ℕ) :
    u32 (u32 part.startInSecs + u32 (offset / partSectorSize)) = partSector part offset 0 := by
  simp only [partSector, u32]
  omega

/-- A request reads its sectors one after the other. -/
theorem readSectors_calls (hs : s.calls = []) :
    CallsTo e part offset (partReads offset numBytes)
      (readSectors e disk part.startInSecs s offset numBytes) := by
  have h₀ : CallsTo e part offset 0 s := by simpa [CallsTo] using hs
  have h₁ := @CallsTo.sectorTo _ _ _ disk _ _ 0 (offset % partSectorSize)
    (firstBytes offset numBytes) _ h₀ rfl
  have h₂ := @CallsTo.middleBlocks _ _ _ disk _ (firstBytes offset numBytes)
    (wholeSectors offset numBytes) _ 0 h₁
  rw [readSectors, partReads, blkstart_eq, partSector_add, partSector_add]
  split
  · exact h₂.sectorTo rfl
  · exact h₂

theorem exynosReadFromPartition_of_ready (h : e.Ready part) (disk heap buffer : ℕ → UInt8)
    (offset numBytes : ℕ) :
    exynosReadFromPartition e disk heap buffer offset numBytes = some ⟨.ok,
      readSectors e disk part.startInSecs ⟨buffer, heap, []⟩ offset numBytes, some numBytes⟩ := by
  simp [exynosReadFromPartition, h.ufs, h.opened, h.memory, h.part_eq]

/-- Only where everything is there does the call say that all is well. -/
theorem ready_of_ok {heap buffer : ℕ → UInt8} {r : PartRead} (hpart : e.part = some part)
    (hr : exynosReadFromPartition e disk heap buffer offset numBytes = some r)
    (hok : r.result = .ok) : e.Ready part := by
  unfold exynosReadFromPartition at hr
  rw [hpart] at hr
  dsimp only at hr
  split at hr
  · cases hr
    cases hok
  · rename_i hufs
    split at hr
    · cases hr
      cases hok
    · rename_i hmemory
      split at hr
      · cases hr
      · rename_i hopened
        exact ⟨by simpa using hufs, by simpa using hopened, by simpa using hmemory, hpart⟩

/-- All the reads succeeded if and only if the device reads all the sectors. -/
theorem all_calls_iff (hs : CallsTo e part offset (partReads offset numBytes) s) :
    (∀ c ∈ s.calls, c.2 = true) ↔ e.ReadsAll part offset numBytes := by
  rw [hs]
  simp [PartEnv.ReadsAll]

/-- A sector that is read gives the bytes at its place. -/
theorem sectorTo_buffer {buffer : ℕ → UInt8} {base j : ℕ} (hs : s.buffer = copy buffer 0 disk base j)
    (hread : e.reads s.calls.length block = true) (hfits : off + n ≤ partSectorSize)
    (hat : 0 < n → partSectorSize * block + off = base + j) :
    (sectorTo e disk s block j off n).buffer = copy buffer 0 disk base (j + n) := by
  simp only [sectorTo, newRead, hread, if_true, hs]
  rcases Nat.eq_zero_or_pos n with rfl | hpos
  · rw [copy_zero, Nat.add_zero]
  · rw [← copy_append, Nat.zero_add]
    refine copy_congr fun i hi => ?_
    have := hat hpos
    rw [copy_of_mem (by omega) (by omega)]
    congr 1
    omega

/-- The loop gives the bytes of its sectors. -/
theorem middleBlocks_buffer {buffer : ℕ → UInt8} {base i : ℕ} (hc : CallsTo e part offset (k + i) s)
    (hs : s.buffer = copy buffer 0 disk base p)
    (hread : ∀ m < n, e.reads (k + i + m) (partSector part offset (k + i + m)) = true)
    (hat : ∀ m < n, partSectorSize * partSector part offset (k + i + m)
      = base + p + partSectorSize * m) :
    (middleBlocks e disk (partSector part offset k) n i p s).buffer
      = copy buffer 0 disk base (p + partSectorSize * n) := by
  induction n generalizing i p s with
  | zero => exact hs
  | succ n ih =>
    have hblock := partSector_add part offset k i
    have hlen : s.calls.length = k + i := by rw [hc, List.length_map, List.length_range]
    have hfirst : (sectorTo e disk s (u32 (partSector part offset k + i)) p 0
        partSectorSize).buffer = copy buffer 0 disk base (p + partSectorSize) := by
      refine sectorTo_buffer hs ?_ (by omega) fun _ => ?_
      · rw [hlen, hblock]
        exact hread 0 (Nat.succ_pos n)
      · rw [hblock]
        exact hat 0 (Nat.succ_pos n)
    have hnext := ih (i := i + 1) (hc.sectorTo hblock) hfirst
      (fun m hm => by
        have := hread (m + 1) (by omega)
        rwa [show k + i + (m + 1) = k + (i + 1) + m by omega] at this)
      (fun m hm => by
        have := hat (m + 1) (by omega)
        rw [show k + i + (m + 1) = k + (i + 1) + m by omega, Nat.mul_add, Nat.mul_one] at this
        omega)
    rw [show p + partSectorSize * (n + 1) = p + partSectorSize + partSectorSize * n by
      rw [Nat.mul_add, Nat.mul_one]; omega]
    exact hnext

/-- Where a sector of the range is. -/
theorem partSector_at (hk : partSectorSize * (part.startInSecs + offset / partSectorSize + k) <
    partSectorSize * 2 ^ 32) :
    partSectorSize * partSector part offset k + offset % partSectorSize
      = partSectorSize * part.startInSecs + offset + partSectorSize * k := by
  have hdiv := Nat.div_add_mod offset partSectorSize
  rw [partSector, u32_of_lt (Nat.lt_of_mul_lt_mul_left hk), Nat.mul_add, Nat.mul_add]
  omega

/-- Where the sectors behind the first one are. -/
theorem partSector_behind (haddr : part.Addressable offset numBytes) (hk : 0 < k)
    (hlt : firstBytes offset numBytes + partSectorSize * (k - 1) < numBytes) :
    partSectorSize * partSector part offset k = partSectorSize * part.startInSecs + offset +
      firstBytes offset numBytes + partSectorSize * (k - 1) := by
  have hlimit := haddr.resolve_left (by omega)
  have hend := @firstBytes_of_lt offset numBytes (by omega)
  have hdiv := Nat.div_add_mod offset partSectorSize
  have := @partSector_at part offset k (by simp only [partSectorSize] at *; omega)
  simp only [partSectorSize] at *
  omega

/-- The number of whole sectors fits 32 bits. -/
theorem wholeSectors_eq (haddr : part.Addressable offset numBytes) :
    wholeSectors offset numBytes = (numBytes - firstBytes offset numBytes) / partSectorSize := by
  refine u32_of_lt ?_
  obtain rfl | hlimit := haddr
  · simp
  · rcases Nat.eq_zero_or_pos numBytes with rfl | hpos
    · simp
    · have hfirst := @firstBytes_pos offset numBytes hpos
      simp only [partSectorSize] at *
      omega

/-- The parts make up the range. -/
theorem parts_total (haddr : part.Addressable offset numBytes) (htail : TailRight offset numBytes) :
    firstBytes offset numBytes + partSectorSize * wholeSectors offset numBytes +
      (if leftBytes offset numBytes ≠ 0 then tailBytes offset numBytes else 0) = numBytes := by
  have hle := @firstBytes_le offset numBytes
  have hwhole := wholeSectors_eq haddr
  have hdiv := Nat.div_add_mod (numBytes - firstBytes offset numBytes) partSectorSize
  by_cases hzero : wholeSectors offset numBytes = 0
  · have hlt : numBytes - firstBytes offset numBytes < partSectorSize :=
      (Nat.div_eq_zero_iff_lt (by decide)).1 (hwhole ▸ hzero)
    have hleft : leftBytes offset numBytes = numBytes - firstBytes offset numBytes := by
      rw [leftBytes, if_neg (not_not.2 hzero)]
    rw [hleft, tailBytes, if_neg (not_not.2 hzero), hzero]
    unfold TailRight at htail
    split <;> omega
  · have hule : u32 (partSectorSize * wholeSectors offset numBytes)
        ≤ partSectorSize * wholeSectors offset numBytes := Nat.mod_le _ _
    rw [tailBytes_of_whole hzero, leftBytes, if_pos hzero]
    rw [← hwhole] at hdiv
    split <;> omega

/-- A read that is right. -/
theorem readSectors_buffer (hall : e.ReadsAll part offset numBytes)
    (htail : TailRight offset numBytes) (haddr : part.Addressable offset numBytes)
    (heap buffer : ℕ → UInt8) :
    (readSectors e disk part.startInSecs ⟨buffer, heap, []⟩ offset numBytes).buffer
      = copy buffer 0 disk (partSectorSize * part.startInSecs + offset) numBytes := by
  have htotal := parts_total haddr htail
  have hreads := hall
  rw [PartEnv.ReadsAll, partReads] at hreads
  have h₀ : CallsTo e part offset 0 ⟨buffer, heap, []⟩ := rfl
  have h₁ := @CallsTo.sectorTo _ _ _ disk _ _ 0 (offset % partSectorSize)
    (firstBytes offset numBytes) _ h₀ rfl
  have hbuf₁ := @sectorTo_buffer e disk ⟨buffer, heap, []⟩ (partSector part offset 0)
    (offset % partSectorSize) (firstBytes offset numBytes) buffer
    (partSectorSize * part.startInSecs + offset) 0 (by simp)
    (hreads 0 (by omega)) firstBytes_fits (fun hpos => by
      have hle := @firstBytes_le offset numBytes
      have hlimit := haddr.resolve_left (by omega)
      have hdiv := Nat.div_add_mod offset partSectorSize
      exact partSector_at (k := 0) (by simp only [partSectorSize] at *; omega))
  rw [Nat.zero_add] at hbuf₁
  have h₂ := @CallsTo.middleBlocks _ _ _ disk _ (firstBytes offset numBytes)
    (wholeSectors offset numBytes) _ 0 h₁
  have hbuf₂ := middleBlocks_buffer (i := 0) (n := wholeSectors offset numBytes) h₁ hbuf₁
    (fun m hm => hreads _ (by omega))
    (fun m hm => by
      have hlast := Nat.mul_lt_mul_of_pos_left hm (show 0 < partSectorSize by decide)
      rw [partSector_behind haddr (by omega) (by
        rw [show 0 + 1 + 0 + m - 1 = m by omega]
        omega), show 0 + 1 + 0 + m - 1 = m by omega])
  rw [readSectors, blkstart_eq, partSector_add, partSector_add]
  split
  · rename_i hleft
    rw [if_pos hleft] at htotal
    have hlen := congrArg List.length h₂
    rw [List.length_map, List.length_range] at hlen
    have h := @sectorTo_buffer _ _ _
      (partSector part offset (0 + 1 + wholeSectors offset numBytes)) 0
      (tailBytes offset numBytes) _ _ _ hbuf₂
      (by
        rw [hlen]
        exact hreads _ (by rw [if_pos hleft]; omega))
      (by rw [Nat.zero_add]; exact tailBytes_le)
      (fun hpos => by
        rw [partSector_behind haddr (by omega) (by
          rw [show 0 + 1 + wholeSectors offset numBytes - 1 = wholeSectors offset numBytes by omega]
          omega)]
        rw [show 0 + 1 + wholeSectors offset numBytes - 1 = wholeSectors offset numBytes by omega]
        omega)
    rwa [htotal] at h
  · rename_i hleft
    rw [if_neg hleft, Nat.add_zero] at htotal
    rwa [htotal] at hbuf₂

/-! ### Reads that are not right -/

/-- From a device of ones, a sector that is read gives ones. -/
theorem sectorTo_ones (hread : e.reads s.calls.length block = true)
    (hfits : off + n ≤ partSectorSize) :
    (sectorTo e (fun _ => 1) s block p off n).buffer = copy s.buffer p (fun _ => 1) 0 n := by
  simp only [sectorTo, newRead, hread, if_true]
  refine copy_congr fun i hi => ?_
  rw [copy_of_mem (by omega) (by omega)]

/-- A last part of another size than the first one is not copied as it should be. -/
theorem readSectors_tail_wrong (hall : e.ReadsAll part offset numBytes)
    (htail : ¬TailRight offset numBytes) {heap : ℕ → UInt8} {base : ℕ} :
    (readSectors e (fun _ => 1) part.startInSecs ⟨fun _ => 0, heap, []⟩ offset numBytes).buffer
      ≠ copy (fun _ => 0) 0 (fun _ => 1) base numBytes := by
  intro heq
  rw [TailRight, not_or, not_or] at htail
  obtain ⟨hmore, hshort, hdouble⟩ := htail
  have hwhole : wholeSectors offset numBytes = 0 := by
    rw [wholeSectors, Nat.div_eq_of_lt (by omega)]
    rfl
  have hleft : leftBytes offset numBytes ≠ 0 := by
    rw [leftBytes, if_neg (not_not.2 hwhole)]
    omega
  have htail : tailBytes offset numBytes = firstBytes offset numBytes := by
    rw [tailBytes, if_neg (not_not.2 hwhole)]
  have hfits := @firstBytes_fits offset numBytes
  have hreads := hall
  rw [PartEnv.ReadsAll, partReads, if_pos hleft, hwhole] at hreads
  have h₀ : CallsTo e part offset 0 ⟨fun _ => 0, heap, []⟩ := rfl
  have h₁ := @CallsTo.sectorTo _ _ _ (fun _ => 1) _ _ 0 (offset % partSectorSize)
    (firstBytes offset numBytes) _ h₀ rfl
  have hlen := congrArg List.length h₁
  rw [List.length_map, List.length_range] at hlen
  have hbuffer : (readSectors e (fun _ => 1) part.startInSecs ⟨fun _ => 0, heap, []⟩ offset
      numBytes).buffer = copy (fun _ => 0) 0 (fun _ => 1) 0
        (firstBytes offset numBytes + firstBytes offset numBytes) := by
    rw [readSectors, blkstart_eq, partSector_add, partSector_add, if_pos hleft, hwhole, htail]
    simp only [middleBlocks, Nat.mul_zero, Nat.add_zero]
    rw [sectorTo_ones (by rw [hlen]; exact hreads 1 (by omega)) (by omega),
      sectorTo_ones (hreads 0 (by omega)) hfits, ← copy_append, Nat.zero_add]
    exact copy_congr fun _ _ => rfl
  rw [hbuffer] at heq
  -- one byte too few, or one too many
  rcases Nat.lt_or_ge (firstBytes offset numBytes + firstBytes offset numBytes) numBytes with h | h
  · have hbyte := congrFun heq (firstBytes offset numBytes + firstBytes offset numBytes)
    rw [copy_of_not_mem (by omega), copy_of_mem (by omega) (by omega)] at hbyte
    exact absurd hbyte (by decide)
  · have hbyte := congrFun heq numBytes
    rw [copy_of_mem (by omega) (by omega), copy_of_not_mem (by omega)] at hbyte
    exact absurd hbyte (by decide)

variable {disk' : ℕ → UInt8}

/-- Only sectors of 32-bit numbers are read. -/
theorem sectorTo_congr (hd : ∀ i < partSectorSize * 2 ^ 32, disk i = disk' i) :
    sectorTo e disk s (u32 block) p off n = sectorTo e disk' s (u32 block) p off n := by
  have hcopy : copy s.tmpBuff 0 disk (partSectorSize * u32 block) partSectorSize
      = copy s.tmpBuff 0 disk' (partSectorSize * u32 block) partSectorSize := by
    refine copy_congr fun i hi => hd _ ?_
    have := u32_lt block
    simp only [partSectorSize] at *
    omega
  simp only [sectorTo, newRead, hcopy]

theorem middleBlocks_congr {i : ℕ} (hd : ∀ i < partSectorSize * 2 ^ 32, disk i = disk' i) :
    middleBlocks e disk block n i p s = middleBlocks e disk' block n i p s := by
  induction n generalizing i p s with
  | zero => rfl
  | succ n ih => rw [middleBlocks, middleBlocks, sectorTo_congr hd, ih]

theorem readSectors_congr (hd : ∀ i < partSectorSize * 2 ^ 32, disk i = disk' i) (start : ℕ) :
    readSectors e disk start s offset numBytes = readSectors e disk' start s offset numBytes := by
  simp only [readSectors, sectorTo_congr hd, middleBlocks_congr hd]

end Reads

/-! ### Which reads are exact -/

/-- What an exact read needs. -/
theorem conditions_of_exact {e : PartEnv} {part : Partition} {offset numBytes : ℕ}
    (h : PartReadExact e offset numBytes) (hready : e.Ready part) :
    part.Inside offset numBytes ∧ e.ReadsAll part offset numBytes ∧
      TailRight offset numBytes ∧ part.Addressable offset numBytes := by
  have hrun := fun disk heap buffer =>
    exynosReadFromPartition_of_ready hready disk heap buffer offset numBytes
  have hcalls := fun disk buffer => @readSectors_calls e part offset numBytes disk
    ⟨buffer, fun _ => 0, []⟩ rfl
  have hinside : part.Inside offset numBytes := by
    by_contra hout
    exact h.closed part hready.part_eq (fun _ => 0) (fun _ => 0) (fun _ => 0) _ (hrun _ _ _)
      (.inr hout) rfl
  have hall : e.ReadsAll part offset numBytes := by
    rw [← all_calls_iff (hcalls (fun _ => 0) fun _ => 0)]
    intro c hc
    by_contra hfail
    exact h.closed part hready.part_eq _ _ _ _ (hrun _ _ _) (.inl ⟨c, hc, by simpa using hfail⟩) rfl
  have hfull := fun disk buffer => (h.full part hready hinside disk (fun _ => 0) buffer _ (hrun _ _ _)
    ((all_calls_iff (hcalls disk buffer)).2 hall)).2.2
  refine ⟨hinside, hall, ?_, ?_⟩
  · by_contra htail
    exact readSectors_tail_wrong hall htail (hfull (fun _ => 1) fun _ => 0)
  · -- a device that differs behind the sectors that can be read
    rw [Partition.Addressable]
    by_contra hfar
    rw [not_or, not_le] at hfar
    let far : ℕ → UInt8 := fun i => if i < partSectorSize * 2 ^ 32 then 0 else 1
    have heq := (hfull far fun _ => 0).symm.trans
      ((congrArg PartSt.buffer (@readSectors_congr _ _ _ _ _ (fun _ => 0)
        (fun i hi => if_pos hi) _)).trans (hfull (fun _ => 0) fun _ => 0))
    have hbyte := congrFun heq (numBytes - 1)
    rw [copy_of_mem (by omega) (by omega), copy_of_mem (by omega) (by omega)] at hbyte
    have : ¬partSectorSize * part.startInSecs + offset + (numBytes - 1 - 0)
        < partSectorSize * 2 ^ 32 := by omega
    simp only [far, if_neg this] at hbyte
    exact absurd hbyte (by decide)

/-- **Partition reads.**  A read is exact if and only if, where everything it needs is there, its
range is in the partition and at sectors of 32-bit numbers, the device reads all its sectors,
and its last part is none, behind a whole sector, or as long as its first part. -/
theorem exynos_read_from_partition_exact_iff (e : PartEnv) (offset numBytes : ℕ) :
    PartReadExact e offset numBytes ↔ ∀ part, e.Ready part →
      part.Inside offset numBytes ∧ e.ReadsAll part offset numBytes ∧
        TailRight offset numBytes ∧ part.Addressable offset numBytes := by
  constructor
  · exact fun h part hready => conditions_of_exact h hready
  · intro h
    refine ⟨fun part hready _ disk heap buffer r hr _ => ?_, fun part hpart disk heap buffer r hr hbad
      hok => ?_⟩
    · obtain ⟨-, hall, htail, haddr⟩ := h part hready
      rw [exynosReadFromPartition_of_ready hready] at hr
      cases hr
      exact ⟨rfl, rfl, readSectors_buffer hall htail haddr heap buffer⟩
    · have hready := ready_of_ok hpart hr hok
      obtain ⟨hinside, hall, -, -⟩ := h part hready
      rw [exynosReadFromPartition_of_ready hready] at hr
      cases hr
      obtain ⟨c, hc, hfail⟩ | hout := hbad
      · have := (all_calls_iff (readSectors_calls rfl)).2 hall c hc
        rw [hfail] at this
        cases this
      · exact hout hinside

/-- A partition of a megabyte at sector 2048 of a UFS device. -/
def examplePart : Partition := ⟨2048, 1048576⟩

/-- A device that does every read. -/
def exampleEnv : PartEnv := ⟨true, true, true, some examplePart, fun _ _ => true, fun _ _ => 0⟩

/-- 256 bytes from offset 500: twelve in the first sector, and twelve of the 244 in the second. -/
theorem not_exynos_read_from_partition_exact : ¬PartReadExact exampleEnv 500 256 := by
  intro h
  have htail := (@conditions_of_exact _ examplePart _ _ h ⟨rfl, rfl, rfl, rfl⟩).2.2.1
  revert htail
  unfold TailRight
  decide

end Avb
end LittleKernel
