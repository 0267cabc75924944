/-
# Partition access through the PIT

`lib/gpt/pit.c`: `pit_entry_write`, `pit_entry_read` and `pit_entry_erase`, with
`pit_flash_sparse` and `pit_get_length` for an image in the sparse format.

The three differ in the device call alone.  The end of the request is computed in 64 bits
and compared with the end of the partition, which is a 32-bit sum of two fields of the
entry; the sector and the number of sectors are cut to 32 bits for the call.  A partition
whose end wraps is refused every request, so no request leaves its partition
(`pitEntryAccess_eq`).  The number of sectors that the device returns is printed when it is
not the one asked for, and nothing else, and it need not be the number that was moved:
`pit_entry_io_iff`.
-/

import LittleKernel.Gpt.DecompressExt4
import LittleKernel.Gpt.Pit

namespace LittleKernel
namespace Pit

open Bytes Gpt Memory Word

/-- `PIT_SECTOR_SIZE`. -/
def pitSectorSize : ℕ := 512

/-- `FMP_USE_SIZE`. -/
def fmpUseSize : ℕ := 40

/-- `str[len] = '0' + ptn->lun`: a `char` behind the name of the interface. -/
def PitEntry.device (id : BootDevId) (ptn : PitEntry) : Gpt.Dev := ⟨id, ptn.lun % 256⟩

/-- `"userdata"`. -/
def userdata : CString := CString.ofBytes [117, 115, 101, 114, 100, 97, 116, 97]

/-- `__pit_get_length`. -/
def PitEntry.length (ptn : PitEntry) : ℕ :=
  u64 ((if ptn.name = userdata then sub32 ptn.blknum fmpUseSize else ptn.blknum) * pitSectorSize)

/-- `pit_get_length`. -/
def pitGetLength (pit : PitInfo) (ptn : PitEntry) : ℕ :=
  if pitCheckHeader pit then ptn.length else 0

section Model

variable (p : Platform) (id : BootDevId)

/-- `pit_flash_sparse`. -/
def pitFlashSparse (pit : PitInfo) (mem : ℕ → UInt8) (ptn : PitEntry) (addr : ℕ) : Outcome :=
  match checkCompressExt4 mem addr (pitGetLength pit ptn) with
  | none => ⟨[], none⟩
  | some 0 => writeCompressedExt4 p mem addr (u32 (ptn.blkstart * pitSectorSize / pitSectorSize))
  | some _ => ⟨[], some 1⟩

/-- What the three functions share; the result of the device call is only printed. -/
def pitEntryAccess (op : PartOp) (ptn : PitEntry) (buf offset size : ℕ) : Outcome :=
  if p.opens (ptn.device id) = false then ⟨[], some 1⟩
  else if offset % pitSectorSize ≠ 0 ∨ size % pitSectorSize ≠ 0 then ⟨[], some 1⟩
  else
    let blkNum := size / pitSectorSize
    let blkOffset := u64 (offset / pitSectorSize + ptn.blkstart)
    if u64 (blkOffset + blkNum) > u32 (ptn.blkstart + ptn.blknum) then ⟨[], some 1⟩
    else ⟨[⟨op, ptn.device id, buf, u32 blkOffset, u32 blkNum⟩], some 0⟩

/-- `pit_entry_write`. -/
def pitEntryWrite (pit : PitInfo) (mem : ℕ → UInt8) (ptn : PitEntry) (buf offset size : ℕ) :
    Outcome :=
  if ptn.Sparse then pitFlashSparse p pit mem ptn buf
  else pitEntryAccess p id .write ptn buf offset size

/-- `pit_entry_read`. -/
def pitEntryRead (ptn : PitEntry) (buf offset size : ℕ) : Outcome :=
  pitEntryAccess p id .read ptn buf offset size

/-- `pit_entry_erase`. -/
def pitEntryErase (ptn : PitEntry) (offset size : ℕ) : Outcome :=
  pitEntryAccess p id .erase ptn 0 offset size

end Model

/-- A request: an entry of 32-bit fields, a buffer, and an offset and a size of 64 bits. -/
structure Request where
  ptn : PitEntry
  buf : ℕ
  offset : ℕ
  size : ℕ
  blkstart_lt : ptn.blkstart < 2 ^ 32
  blknum_lt : ptn.blknum < 2 ^ 32
  offset_lt : offset < 2 ^ 64
  size_lt : size < 2 ^ 64

section Spec

variable (p : Platform) (id : BootDevId) (pit : PitInfo) (mem : ℕ → UInt8)

/-- The request `r`, by the function it is made to. -/
def Request.call (r : Request) : PartOp → Outcome
  | .write => pitEntryWrite p id pit mem r.ptn r.buf r.offset r.size
  | .read => pitEntryRead p id r.ptn r.buf r.offset r.size
  | .erase => pitEntryErase p id r.ptn r.offset r.size

/-- Whole sectors that lie in the partition. -/
def Request.Fits (r : Request) : Prop :=
  512 ∣ r.offset ∧ 512 ∣ r.size ∧ r.offset + r.size ≤ 512 * r.ptn.blknum

instance (r : Request) : Decidable r.Fits := inferInstanceAs (Decidable (_ ∧ _ ∧ _))

/-- The device call that moves the sectors of the request. -/
def Request.access (r : Request) (op : PartOp) : Access :=
  ⟨op, ⟨id, r.ptn.lun⟩, if op = .erase then 0 else r.buf, r.ptn.blkstart + r.offset / 512,
    r.size / 512⟩

/-- **Access to a partition.**  Only sectors of the partition are touched, a request that
does not fit is refused without a device call, and 0 is returned only when the device has
moved every sector asked for. -/
structure EntryIo (r : Request) (op : PartOp) : Prop where
  inside : ∀ a ∈ (r.call p id pit mem op).accesses, ∀ s, a.Touches s →
    a.dev = ⟨id, r.ptn.lun⟩ ∧ r.ptn.blkstart ≤ s ∧ s < r.ptn.blkstart + r.ptn.blknum
  refused : ¬r.Fits → r.call p id pit mem op = ⟨[], some 1⟩
  done : (r.call p id pit mem op).ret = some 0 →
    (r.call p id pit mem op).accesses = [r.access id op] ∧ p.moved (r.access id op) = r.size / 512

end Spec

section Proof

variable {p : Platform} {id : BootDevId} {pit : PitInfo} {mem : ℕ → UInt8} {r : Request}
  {op : PartOp}

/-- **What a request comes to**: it is refused, or it makes the device call that its fields
say, which lies in the partition. -/
theorem pitEntryAccess_eq (p : Platform) (id : BootDevId) (r : Request) (op : PartOp) (buf : ℕ) :
    pitEntryAccess p id op r.ptn buf r.offset r.size =
      if p.opens (r.ptn.device id) = true ∧ r.Fits ∧ r.ptn.blkstart + r.ptn.blknum < 2 ^ 32 then
        ⟨[⟨op, r.ptn.device id, buf, r.ptn.blkstart + r.offset / 512, r.size / 512⟩], some 0⟩
      else ⟨[], some 1⟩ := by
  have hstart := r.blkstart_lt
  have hnum := r.blknum_lt
  have hoffset := r.offset_lt
  have hsize := r.size_lt
  by_cases hopen : p.opens (r.ptn.device id) = true
  swap
  · rw [if_neg fun h => hopen h.1, pitEntryAccess, if_pos (by simpa using hopen)]
  by_cases halign : 512 ∣ r.offset ∧ 512 ∣ r.size
  swap
  · have hnot : r.offset % pitSectorSize ≠ 0 ∨ r.size % pitSectorSize ≠ 0 := by
      unfold pitSectorSize
      omega
    rw [if_neg fun h => halign ⟨h.2.1.1, h.2.1.2.1⟩, pitEntryAccess, if_neg (by simp [hopen]),
      if_pos hnot]
  have hsectors : ¬(r.offset % pitSectorSize ≠ 0 ∨ r.size % pitSectorSize ≠ 0) := by
    unfold pitSectorSize
    omega
  have hoff :
      u64 (r.offset / pitSectorSize + r.ptn.blkstart) = r.ptn.blkstart + r.offset / 512 := by
    rw [u64_of_lt] <;> unfold pitSectorSize <;> omega
  have hend : u64 (r.ptn.blkstart + r.offset / 512 + r.size / pitSectorSize) =
      r.ptn.blkstart + r.offset / 512 + r.size / 512 := by
    rw [u64_of_lt] <;> unfold pitSectorSize <;> omega
  rw [pitEntryAccess, if_neg (by simp [hopen]), if_neg hsectors]
  simp only [hoff, hend]
  by_cases hwrap : r.ptn.blkstart + r.ptn.blknum < 2 ^ 32
  · rw [u32_of_lt hwrap]
    by_cases hfits : r.Fits
    · have hle := hfits.2.2
      rw [if_neg (by omega), if_pos ⟨hopen, hfits, hwrap⟩, u32_of_lt (by omega),
        u32_of_lt (by unfold pitSectorSize; omega)]
      rfl
    · have hgt :
          r.ptn.blkstart + r.offset / 512 + r.size / 512 > r.ptn.blkstart + r.ptn.blknum := by
        by_contra hle
        exact hfits ⟨halign.1, halign.2, by omega⟩
      rw [if_pos hgt, if_neg fun h => hfits h.2.1]
  · -- the end of the partition wraps to before its start
    have hlt : u32 (r.ptn.blkstart + r.ptn.blknum) < r.ptn.blkstart := by
      unfold u32
      omega
    rw [if_pos (by omega), if_neg fun h => hwrap h.2.2]

theorem Request.call_eq (r : Request) (hsparse : op = .write → ¬r.ptn.Sparse) :
    r.call p id pit mem op =
      if p.opens (r.ptn.device id) = true ∧ r.Fits ∧ r.ptn.blkstart + r.ptn.blknum < 2 ^ 32 then
        ⟨[{ r.access id op with dev := r.ptn.device id }], some 0⟩
      else ⟨[], some 1⟩ := by
  cases op with
  | read => exact pitEntryAccess_eq p id r .read r.buf
  | write =>
    rw [Request.call, pitEntryWrite, if_neg (hsparse rfl)]
    exact pitEntryAccess_eq p id r .write r.buf
  | erase => exact pitEntryAccess_eq p id r .erase 0

/-- **When partition access is what it should be.**  Of the requests that are let through,
it is for those whose unit has its own name and of which the device moves every sector. -/
theorem pit_entry_io_iff (p : Platform) (id : BootDevId) (pit : PitInfo) (mem : ℕ → UInt8)
    (r : Request) (op : PartOp) (hsparse : op = .write → ¬r.ptn.Sparse) :
    EntryIo p id pit mem r op ↔
      (p.opens (r.ptn.device id) = true → r.Fits → r.ptn.blkstart + r.ptn.blknum < 2 ^ 32 →
        r.ptn.lun < 256 ∧ p.moved (r.access id op) = r.size / 512) := by
  have hcall : r.call p id pit mem op = _ := r.call_eq hsparse
  by_cases hpass :
      p.opens (r.ptn.device id) = true ∧ r.Fits ∧ r.ptn.blkstart + r.ptn.blknum < 2 ^ 32
  · rw [if_pos hpass] at hcall
    have hdev : r.ptn.lun < 256 ↔ r.ptn.device id = ⟨id, r.ptn.lun⟩ := by
      simp only [PitEntry.device, Gpt.Dev.mk.injEq, true_and]
      omega
    constructor
    · intro h _ _ _
      obtain ⟨haccess, hdone⟩ := h.done (by rw [hcall])
      rw [hcall, List.cons.injEq] at haccess
      exact ⟨hdev.2 (congrArg Access.dev haccess.1), hdone⟩
    · intro h
      obtain ⟨hlun, hdone⟩ := h hpass.1 hpass.2.1 hpass.2.2
      rw [hdev.1 hlun] at hcall
      refine ⟨?_, fun hnot => absurd hpass.2.1 hnot, fun _ => ⟨by rw [hcall]; rfl, hdone⟩⟩
      rw [hcall]
      intro a ha s htouch
      rw [List.mem_singleton.1 ha] at htouch ⊢
      obtain ⟨hlow, hhigh⟩ := htouch
      have hle := hpass.2.1.2.2
      simp only [Request.access] at hlow hhigh
      exact ⟨rfl, by omega, by omega⟩
  · rw [if_neg hpass] at hcall
    refine ⟨fun _ ho hf hw => absurd ⟨ho, hf, hw⟩ hpass, fun _ => ⟨?_, fun _ => hcall, ?_⟩⟩
    · rw [hcall]
      exact fun a ha => absurd ha List.not_mem_nil
    · rw [hcall]
      exact fun h => by cases h

/-- A partition of 64 sectors from sector 128 of LU 3 on, and a request for sectors 8 to 15. -/
def exampleRequest : Request where
  ptn := ⟨0, 128, 64, 3, List.replicate 236 0, rfl⟩
  buf := 0x90000000
  offset := 4096
  size := 4096
  blkstart_lt := by decide
  blknum_lt := by decide
  offset_lt := by decide
  size_lt := by decide

/-- A PIT with the partition of the request alone. -/
def examplePit : PitInfo := ⟨0, 0, fun _ => exampleRequest.ptn⟩

/-- A device that moves what it is asked to: eight sectors of the partition are written, and
0 is returned. -/
theorem pit_entry_io_iff_moved :
    EntryIo ⟨.ufs, fun _ => true, Access.count, Access.count⟩ .ufs examplePit (fun _ => 0)
        exampleRequest .write ∧
      exampleRequest.call ⟨.ufs, fun _ => true, Access.count, Access.count⟩ .ufs examplePit
        (fun _ => 0) .write = ⟨[⟨.write, ⟨.ufs, 3⟩, 0x90000000, 136, 8⟩], some 0⟩ := by
  constructor
  · exact (pit_entry_io_iff ⟨.ufs, fun _ => true, Access.count, Access.count⟩ .ufs examplePit
      (fun _ => 0) exampleRequest .write fun _ => by decide).2 fun _ _ _ => ⟨by decide, rfl⟩
  · rw [Request.call_eq _ fun _ => by decide]
    decide

/-- The call returns 0 after 4 of the 8 sectors, whatever number the device returns. -/
theorem not_entryIo_of_four (done : ℕ) :
    ¬EntryIo ⟨.ufs, fun _ => true, fun _ => done, fun _ => 4⟩ .ufs examplePit (fun _ => 0)
      exampleRequest .write := by
  intro h
  have hcall : (exampleRequest.call ⟨.ufs, fun _ => true, fun _ => done, fun _ => 4⟩ .ufs
      examplePit (fun _ => 0) .write).ret = some 0 := by
    rw [Request.call_eq _ fun _ => by decide, if_pos ⟨rfl, by decide, by decide⟩]
  have hmoved : 4 = 8 := (h.done hcall).2
  exact absurd hmoved (by decide)

/-- **A write that failed.**  The device moves 4 of the 8 sectors and says 4, or says 8. -/
theorem pit_entry_write_failed :
    ¬EntryIo ⟨.ufs, fun _ => true, fun _ => 4, fun _ => 4⟩ .ufs examplePit (fun _ => 0)
        exampleRequest .write ∧
      ¬EntryIo ⟨.ufs, fun _ => true, fun _ => 8, fun _ => 4⟩ .ufs examplePit (fun _ => 0)
        exampleRequest .write :=
  ⟨not_entryIo_of_four 4, not_entryIo_of_four 8⟩

end Proof

end Pit
end LittleKernel
