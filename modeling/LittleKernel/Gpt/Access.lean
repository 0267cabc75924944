/-
# Partition access

`lib/gpt/gpt.c`: the entry cache of the GPT manager and `gpt_access_part`, behind
`gpt_read_part`, `gpt_write_part` and `gpt_erase_part`.

A partition lies in the blocks from `part_start_lba` to `part_end_lba` of its
logical unit; a request gives a byte offset in the partition and a size, 0 for
the whole of it.  `gpt_get_offset_in_secs` and `gpt_get_size_in_secs` turn them
into a first sector and a number of sectors, through 32- and 64-bit values that
wrap.  The size is compared with the end of the partition counted from the start
of the device and cut to the size of the partition, so from an offset on a
request may run past the end.  `gpt_access_part_confined_iff` says which requests
stay inside.

A sector here is one that a call of the block layer names.
-/

import LittleKernel.Gpt.DecompressExt4
import Mathlib.Tactic.IntervalCases

namespace LittleKernel
namespace Gpt

open Memory Word

/-- The fields of `struct gpt_entry` that decide an access: the first and the last
block and `attributes.type`. -/
structure GptEntry where
  partStartLba : ℕ
  partEndLba : ℕ
  type : ℕ
  start_lt : partStartLba < 2 ^ 64
  end_lt : partEndLba < 2 ^ 64

/-- A `PART_ENTRY` of the cache. -/
structure PartEntry where
  magic : ℕ
  lun : ℕ
  gptEntry : GptEntry

/-- A GPT as it was loaded: what is read of its header, and the entries behind it. -/
structure GptChunk where
  signature : ℕ
  partNumEntry : ℕ
  entries : ℕ → GptEntry

/-- `PART_ENTRY_MAGIC`. -/
def partEntryMagic : ℕ := 0x54524150

/-- `GPT_HEADER_SIGNATURE`. -/
def gptHeaderSignature : ℕ := 0x5452415020494645

/-- `gpt_build_entry_table_cache`: the entries of every valid GPT, chunk 1 being the
backup of GPT #0. -/
def gptBuildEntryTableCache (chunks : ℕ → GptChunk) : List PartEntry :=
  (List.range 3).flatMap fun i =>
    let c := chunks (if i = 0 then i else i + 1)
    if c.signature = gptHeaderSignature then
      (List.range c.partNumEntry).map fun k => ⟨partEntryMagic, i, c.entries k⟩
    else []

theorem magic_of_mem_cache {chunks : ℕ → GptChunk} {e : PartEntry}
    (h : e ∈ gptBuildEntryTableCache chunks) : e.magic = partEntryMagic := by
  obtain ⟨i, -, hi⟩ := List.mem_flatMap.1 h
  obtain ⟨-, k, -, rfl⟩ : _ ∧ ∃ k < _, _ = e := by simpa using hi
  rfl

/-- What `gpt_init` keeps: the kind of the device and `s_block_in_bytes`.  The block
size passed `SIGN_SIZE_IN_BYTES % dev->block_size`, and the block layer serves only
devices with blocks of whole sectors. -/
structure Manager where
  devId : BootDevId
  blockInBytes : ℕ
  sector_dvd : 512 ∣ blockInBytes
  block_dvd : blockInBytes ∣ 4096

/-- `block_in_secs`. -/
def Manager.blockInSecs (m : Manager) : ℕ := m.blockInBytes / 512

/-- `INV_LBA_IN_SECS`. -/
def invLbaInSecs : ℕ := 0xFFFFFFFF

/-- `ROUNDUP` on `u64`. -/
def roundup (a b : ℕ) : ℕ := u64 (a + (b - 1)) &&& (2 ^ 64 - 1 - (b - 1))

/-- `gpt_get_offset_in_secs`. -/
def gptGetOffsetInSecs (e : GptEntry) (offsetInBytes blockInSecs blockInBytes : ℕ) : ℕ :=
  let lastInSecs := u32 (sub64 (u64 (u64 (e.partEndLba + 1) * blockInSecs)) 1)
  let startInBytes := u64 (e.partStartLba * blockInBytes)
  if offsetInBytes ≠ 0 then
    if offsetInBytes % 512 ≠ 0 then invLbaInSecs
    else if u64 (startInBytes + offsetInBytes) / 512 > lastInSecs then invLbaInSecs
    else u32 (u64 (startInBytes + offsetInBytes) / 512)
  else u32 (u64 (e.partStartLba * blockInSecs))

/-- `gpt_get_part_size_in_bytes`, which `gpt_get_size_in_secs` computes in place. -/
def gptGetPartSizeInBytes (m : Manager) (e : GptEntry) : ℕ :=
  u64 (u64 (sub64 e.partEndLba e.partStartLba + 1) * m.blockInBytes)

/-- `gpt_get_size_in_secs`. -/
def gptGetSizeInSecs (m : Manager) (e : GptEntry) (offsetInBytes sizeInBytes : ℕ) : ℕ :=
  let sizeInBytesB := gptGetPartSizeInBytes m e
  let sizeInBytesTemp :=
    if sizeInBytes ≠ 0 then
      if sizeInBytes % 512 ≠ 0 then 0
      else if sizeInBytes < 512 ∨ sizeInBytes > u64 (offsetInBytes + sizeInBytesB) then 0
      else sizeInBytes
    else sizeInBytesB
  u32 (min (roundup sizeInBytesTemp m.blockInBytes) sizeInBytesB / 512)

/-- `gpt_open_dev` returns 0. -/
def gptOpenDev (p : Platform) (m : Manager) (lun : ℕ) : Prop :=
  m.devId ≠ .none ∧ p.opens ⟨m.devId, lun⟩ = true

instance (p : Platform) (m : Manager) (lun : ℕ) : Decidable (gptOpenDev p m lun) :=
  inferInstanceAs (Decidable (_ ∧ _))

/-- `gpt_access_disk`: the device calls and the number of sectors. -/
def gptAccessDisk (p : Platform) (m : Manager) (op : PartOp) (buf lun offsetInSecs sizeInSecs : ℕ) :
    List Access × ℕ :=
  if gptOpenDev p m lun then
    let a : Access := ⟨op, ⟨m.devId, lun⟩, buf, offsetInSecs, sizeInSecs⟩
    ([a], if p.done a ≠ sizeInSecs then 0 else p.done a)
  else ([], 0)

/-- The entry is flashed from a sparse image: `FS_TYPE_SPARSE_EXT4` or
`FS_TYPE_SPARSE_F2FS`. -/
def GptEntry.Sparse (e : GptEntry) : Prop := 2 ≤ e.type ∧ e.type < 4

instance (e : GptEntry) : Decidable e.Sparse := inferInstanceAs (Decidable (_ ∧ _))

/-- `gpt_access_part`. -/
def gptAccessPart (p : Platform) (m : Manager) (op : PartOp) (partE : Option PartEntry)
    (mem : ℕ → UInt8) (buf offsetInBytes sizeInBytes : ℕ) : Outcome :=
  match partE with
  | none => ⟨[], some 0⟩
  | some partE =>
    let e := partE.gptEntry
    if partE.magic ≠ partEntryMagic then ⟨[], some 0⟩
    else if op = .write ∧ e.Sparse then
      -- the offset and the size are ignored
      match checkCompressExt4 mem buf (gptGetPartSizeInBytes m e) with
      | none => ⟨[], none⟩
      | some r =>
        if r = 0 then writeCompressedExt4 p mem buf (u32 (u64 (e.partStartLba * m.blockInSecs)))
        else ⟨[], some (-1)⟩
    else
      let offsetInSecs := gptGetOffsetInSecs e offsetInBytes m.blockInSecs m.blockInBytes
      if offsetInSecs = invLbaInSecs then ⟨[], some (-1)⟩
      else
        let sizeInSecs := gptGetSizeInSecs m e (u32 (offsetInSecs * 512)) sizeInBytes
        if sizeInSecs = 0 then ⟨[], some (-1)⟩
        else
          let r := gptAccessDisk p m op buf partE.lun offsetInSecs sizeInSecs
          ⟨r.1, some (if r.2 = 0 then -1 else 0)⟩

/-! ## What confinement means -/

section Range

variable (m : Manager) (e : GptEntry)

/-- The first sector of the partition. -/
def firstSector : ℕ := e.partStartLba * m.blockInSecs

/-- The sector behind the last one of the partition. -/
def endSector : ℕ := (e.partEndLba + 1) * m.blockInSecs

/-- The size of the partition in bytes. -/
def partBytes : ℕ := (e.partEndLba + 1 - e.partStartLba) * m.blockInBytes

end Range

/-- Every sector of the access is one of the partition, on its own device. -/
def Inside (m : Manager) (partE : PartEntry) (a : Access) : Prop :=
  ∀ s, a.Touches s → a.dev = ⟨m.devId, partE.lun⟩ ∧
    firstSector m partE.gptEntry ≤ s ∧ s < endSector m partE.gptEntry

/-- The request fits in the partition: the bytes asked for, or the chunks that a
sparse image has to write. -/
def RequestFits (p : Platform) (m : Manager) (op : PartOp) (e : GptEntry) (mem : ℕ → UInt8)
    (buf offset size : ℕ) : Prop :=
  if op = .write ∧ e.Sparse then
    ChunksFit (endSector m e) (firstSector m e) (sparseChunks p mem buf)
  else offset + size ≤ partBytes m e

/-- **Confinement.**  Whatever the request makes the device do stays inside the
partition, and a request that does not fit makes it do nothing. -/
def Confined (p : Platform) (m : Manager) (op : PartOp) (partE : PartEntry) (mem : ℕ → UInt8)
    (buf offset size : ℕ) : Prop :=
  ∀ a ∈ (gptAccessPart p m op (some partE) mem buf offset size).accesses,
    Inside m partE a ∧ RequestFits p m op partE.gptEntry mem buf offset size

/-! ## The arithmetic of a request -/

theorem Manager.blockInBytes_eq (m : Manager) : m.blockInBytes = 512 * m.blockInSecs :=
  (Nat.mul_div_cancel' m.sector_dvd).symm

/-- The block sizes that `gpt_init` lets through. -/
theorem Manager.blockInSecs_cases (m : Manager) :
    m.blockInSecs = 1 ∨ m.blockInSecs = 2 ∨ m.blockInSecs = 4 ∨ m.blockInSecs = 8 := by
  have hdvd : m.blockInSecs ∣ 8 := by
    have h := m.block_dvd
    rw [m.blockInBytes_eq] at h
    exact Nat.dvd_of_mul_dvd_mul_left (k := 512) (by norm_num) h
  have hle := Nat.le_of_dvd (by norm_num) hdvd
  generalize m.blockInSecs = n at hdvd hle
  interval_cases n <;> revert hdvd <;> decide

/-- Clearing the low bits of a number of `w` bits. -/
theorem and_clear_low {w x k : ℕ} (hx : x < 2 ^ w) (hk : k ≤ w) :
    x &&& (2 ^ w - 1 - (2 ^ k - 1)) = x / 2 ^ k * 2 ^ k := by
  have hpos : 0 < 2 ^ k := Nat.two_pow_pos k
  have hle : 2 ^ k ≤ 2 ^ w := Nat.pow_le_pow_right (by norm_num) hk
  apply Nat.eq_of_testBit_eq
  intro i
  rw [show 2 ^ w - 1 - (2 ^ k - 1) = 2 ^ w - ((2 ^ k - 1) + 1) by omega, Nat.testBit_and,
    Nat.testBit_two_pow_sub_succ (by omega), Nat.testBit_two_pow_sub_one, Nat.testBit_mul_two_pow,
    Nat.testBit_div_two_pow]
  rcases Nat.lt_or_ge i k with hik | hik
  · simp [hik]
  · rw [Nat.sub_add_cancel hik]
    rcases Nat.lt_or_ge i w with hi | hi
    · simp [hi, hik]
    · have hxi : x.testBit i = false :=
        Nat.testBit_lt_two_pow (hx.trans_le (Nat.pow_le_pow_right (by norm_num) hi))
      simp [hxi]

theorem Manager.blockInBytes_eq_two_pow (m : Manager) : ∃ k ≤ 12, m.blockInBytes = 2 ^ k := by
  rw [m.blockInBytes_eq]
  rcases m.blockInSecs_cases with h | h | h | h <;> rw [h]
  exacts [⟨9, by norm_num⟩, ⟨10, by norm_num⟩, ⟨11, by norm_num⟩, ⟨12, by norm_num⟩]

/-- `ROUNDUP` to a power of two, up to the wrap of the addition. -/
theorem Manager.roundup_eq (m : Manager) (a : ℕ) :
    roundup a m.blockInBytes =
      (a + m.blockInBytes - 1) % 2 ^ 64 / m.blockInBytes * m.blockInBytes := by
  obtain ⟨k, hk, hb⟩ := m.blockInBytes_eq_two_pow
  have hpos : 0 < 2 ^ k := Nat.two_pow_pos k
  rw [hb, roundup, and_clear_low (u64_lt _) (by omega), u64, Nat.add_sub_assoc hpos]

/-- The size of the partition in bytes as the code has it, in 64 bits. -/
def partBytes64 (m : Manager) (e : GptEntry) : ℕ :=
  (2 ^ 64 + e.partEndLba + 1 - e.partStartLba) * m.blockInBytes % 2 ^ 64

theorem gptGetPartSizeInBytes_eq (m : Manager) (e : GptEntry) :
    gptGetPartSizeInBytes m e = partBytes64 m e := by
  have hS := e.start_lt
  have hE := e.end_lt
  have hsub : u64 (sub64 e.partEndLba e.partStartLba + 1) =
      (2 ^ 64 + e.partEndLba + 1 - e.partStartLba) % 2 ^ 64 := by
    unfold sub64 u64
    omega
  rw [gptGetPartSizeInBytes, partBytes64, hsub, u64, Nat.mod_mul_mod]

section Taken

variable (m : Manager) (e : GptEntry)

/-- The first sector of a request at `offset`, wrapped as the code has it. -/
def startTaken (offset : ℕ) : ℕ :=
  if offset = 0 then firstSector m e % 2 ^ 32
  else (e.partStartLba * m.blockInBytes + offset) % 2 ^ 64 / 512

/-- The last sector of the partition, cut to 32 bits. -/
def lastTaken : ℕ := (endSector m e - 1) % 2 ^ 32

/-- The bytes of a request of `size`: rounded up to blocks and cut to the size of
the partition. -/
def bytesTaken (size : ℕ) : ℕ :=
  min (if size = 0 then partBytes64 m e
    else (size + m.blockInBytes - 1) % 2 ^ 64 / m.blockInBytes * m.blockInBytes) (partBytes64 m e)

/-- The offset is refused. -/
def OffsetRefused (offset : ℕ) : Prop :=
  offset % 512 ≠ 0 ∨ (offset ≠ 0 ∧ lastTaken m e < startTaken m e offset) ∨
    startTaken m e offset = 2 ^ 32 - 1

/-- The size is refused at `offset`. -/
def SizeRefused (offset size : ℕ) : Prop :=
  size % 512 ≠ 0 ∨ (startTaken m e offset * 512 % 2 ^ 32 + partBytes64 m e) % 2 ^ 64 < size ∨
    bytesTaken m e size % 2 ^ 41 = 0

end Taken

theorem lastInSecs_eq (m : Manager) (e : GptEntry) :
    u32 (sub64 (u64 (u64 (e.partEndLba + 1) * m.blockInSecs)) 1) = lastTaken m e := by
  have hE := e.end_lt
  unfold lastTaken endSector sub64 u32 u64
  rcases m.blockInSecs_cases with h | h | h | h <;> rw [h] <;> omega

theorem startInSecs_eq (m : Manager) (e : GptEntry) :
    u32 (u64 (e.partStartLba * m.blockInSecs)) = u32 (firstSector m e) := by
  unfold u32 u64 firstSector
  omega

/-- `gpt_get_offset_in_secs` over the wrapped values. -/
theorem gptGetOffsetInSecs_eq (m : Manager) (e : GptEntry) (offset : ℕ) :
    gptGetOffsetInSecs e offset m.blockInSecs m.blockInBytes =
      if offset ≠ 0 ∧ (offset % 512 ≠ 0 ∨ lastTaken m e < startTaken m e offset) then invLbaInSecs
      else startTaken m e offset := by
  have hlast : lastTaken m e < 2 ^ 32 := Nat.mod_lt _ (by norm_num)
  simp only [gptGetOffsetInSecs, lastInSecs_eq, startInSecs_eq]
  rcases Nat.eq_zero_or_pos offset with rfl | hpos
  · simp [startTaken, u32]
  · have hstart : u64 (u64 (e.partStartLba * m.blockInBytes) + offset) / 512 =
        startTaken m e offset := by
      rw [startTaken, if_neg (by omega), u64, u64, Nat.mod_add_mod]
    rw [hstart, if_pos (by omega)]
    split_ifs with h1 h2 h3 h3
    · rfl
    · omega
    · rfl
    · omega
    · omega
    · exact u32_of_lt (by omega)

theorem gptGetOffsetInSecs_eq_inv_iff (m : Manager) (e : GptEntry) (offset : ℕ) :
    gptGetOffsetInSecs e offset m.blockInSecs m.blockInBytes = invLbaInSecs ↔
      OffsetRefused m e offset := by
  rw [gptGetOffsetInSecs_eq, OffsetRefused, invLbaInSecs]
  split_ifs with h
  · simp only [true_iff]
    tauto
  · constructor
    · intro h'
      exact .inr (.inr h')
    · rintro (h' | h' | h')
      · exact absurd ⟨by rintro rfl; simp at h', .inl h'⟩ h
      · exact absurd ⟨h'.1, .inr h'.2⟩ h
      · exact h'

variable {m : Manager} {e : GptEntry} {offset : ℕ}

/-- An offset that is not refused is taken as it wraps. -/
theorem gptGetOffsetInSecs_of_not_refused (h : ¬ OffsetRefused m e offset) :
    gptGetOffsetInSecs e offset m.blockInSecs m.blockInBytes = startTaken m e offset := by
  rw [gptGetOffsetInSecs_eq, if_neg]
  rintro ⟨h0, h1 | h1⟩
  · exact h (.inl h1)
  · exact h (.inr (.inl ⟨h0, h1⟩))

theorem u32_div_sector (x : ℕ) : u32 (x / 512) = x % 2 ^ 41 / 512 := by
  unfold u32
  omega

/-- Rounding up the size of the partition, or a refused size, changes nothing. -/
theorem roundup_partBytes64 (m : Manager) (e : GptEntry) :
    roundup (partBytes64 m e) m.blockInBytes = partBytes64 m e := by
  rw [m.roundup_eq, partBytes64, m.blockInBytes_eq]
  generalize 2 ^ 64 + e.partEndLba + 1 - e.partStartLba = x
  rcases m.blockInSecs_cases with h | h | h | h <;> rw [h] <;> omega

theorem roundup_zero (m : Manager) : roundup 0 m.blockInBytes = 0 := by
  rw [m.roundup_eq, m.blockInBytes_eq]
  rcases m.blockInSecs_cases with h | h | h | h <;> rw [h] <;> norm_num

theorem sector_dvd_bytesTaken (m : Manager) (e : GptEntry) (size : ℕ) :
    512 ∣ bytesTaken m e size := by
  unfold bytesTaken partBytes64
  rw [m.blockInBytes_eq]
  generalize 2 ^ 64 + e.partEndLba + 1 - e.partStartLba = x
  rcases m.blockInSecs_cases with h | h | h | h <;> rw [h] <;> split_ifs <;> omega

/-- `gpt_get_size_in_secs` over the wrapped values. -/
theorem gptGetSizeInSecs_eq (m : Manager) (e : GptEntry) (offset size : ℕ) :
    gptGetSizeInSecs m e (u32 (startTaken m e offset * 512)) size =
      if size % 512 ≠ 0 ∨ (startTaken m e offset * 512 % 2 ^ 32 + partBytes64 m e) % 2 ^ 64 < size
      then 0 else bytesTaken m e size % 2 ^ 41 / 512 := by
  simp only [gptGetSizeInSecs, gptGetPartSizeInBytes_eq, u32_div_sector, bytesTaken, u64]
  rcases Nat.eq_zero_or_pos size with rfl | hpos
  · simp [roundup_partBytes64]
  · rw [if_pos (by omega), if_neg (by omega : size ≠ 0), ← m.roundup_eq]
    split_ifs with h1 h2 h2 h3 h3
    · simp [roundup_zero]
    · exact absurd (.inl h1) h2
    · simp [roundup_zero]
    · exact absurd (by unfold u32 at h2; omega) h3
    · exact absurd h3 (by unfold u32 at h2; omega)
    · rfl

theorem gptGetSizeInSecs_eq_zero_iff (m : Manager) (e : GptEntry) (offset size : ℕ) :
    gptGetSizeInSecs m e (u32 (startTaken m e offset * 512)) size = 0 ↔
      SizeRefused m e offset size := by
  have h512 := sector_dvd_bytesTaken m e size
  rw [gptGetSizeInSecs_eq, SizeRefused]
  split_ifs with h
  · tauto
  · rw [not_or] at h
    omega

/-- A size that is not refused is taken as it wraps. -/
theorem gptGetSizeInSecs_of_not_refused {offset size : ℕ} (h : ¬ SizeRefused m e offset size) :
    gptGetSizeInSecs m e (u32 (startTaken m e offset * 512)) size =
      bytesTaken m e size % 2 ^ 41 / 512 := by
  rw [gptGetSizeInSecs_eq, if_neg]
  rintro (h1 | h1)
  · exact h (.inl h1)
  · exact h (.inr (.inl h1))

/-! ## Which requests stay inside -/

/-- The partition code refuses a request that is not for a sparse image, or the
device does not open. -/
def RawRefused (p : Platform) (m : Manager) (partE : PartEntry) (offset size : ℕ) : Prop :=
  OffsetRefused m partE.gptEntry offset ∨ SizeRefused m partE.gptEntry offset size ∨
    ¬ gptOpenDev p m partE.lun

/-- A request that is not for a sparse image stays inside: the partition has a
block, the first sector is below `2 ^ 32`, and from `offset` on there is room for
`size` bytes and for the blocks they are rounded up to (all of the partition for
size 0), as far as these show in a 32-bit number of sectors. -/
def RawInPlace (m : Manager) (e : GptEntry) (offset size : ℕ) : Prop :=
  e.partStartLba ≤ e.partEndLba ∧ firstSector m e + offset / 512 < 2 ^ 32 ∧
    offset + size ≤ partBytes m e ∧
    offset + (if size = 0 then partBytes m e
      else (size + m.blockInBytes - 1) / m.blockInBytes * m.blockInBytes) % 2 ^ 41 ≤ partBytes m e

/-- A sparse image stays inside: its written chunks fit, no start of one wraps to
before the partition, and the partition is on the device they go to. -/
def SparseInPlace (p : Platform) (m : Manager) (partE : PartEntry) (mem : ℕ → UInt8) (buf : ℕ) :
    Prop :=
  let e := partE.gptEntry
  let cs := sparseChunks p mem buf
  ChunksFit (endSector m e) (firstSector m e) cs ∧
    ChunksFrom (firstSector m e) (firstSector m e) cs ∧
    (ChunksWrite cs → scsi0 = ⟨m.devId, partE.lun⟩)

/-- The requests that are confined. -/
def InPlace (p : Platform) (m : Manager) (op : PartOp) (partE : PartEntry) (mem : ℕ → UInt8)
    (buf offset size : ℕ) : Prop :=
  if op = .write ∧ partE.gptEntry.Sparse then
    checkCompressExt4 mem buf (partBytes64 m partE.gptEntry) ≠ some 0 ∨ ¬ p.Writes ∨
      SparseInPlace p m partE mem buf
  else RawRefused p m partE offset size ∨ RawInPlace m partE.gptEntry offset size

/-- The start taken is at or behind the start of the partition exactly if nothing
wrapped. -/
theorem firstSector_le_startTaken_iff
    (ho : offset < 2 ^ 64) (ho5 : offset % 512 = 0) (hlt : startTaken m e offset < 2 ^ 32) :
    firstSector m e ≤ startTaken m e offset ↔ firstSector m e + offset / 512 < 2 ^ 32 := by
  unfold startTaken firstSector at *
  rw [m.blockInBytes_eq] at *
  generalize e.partStartLba = S at *
  rcases m.blockInSecs_cases with hn | hn | hn | hn <;> simp only [hn] at * <;>
    split_ifs at * <;> omega

theorem startTaken_eq (ho5 : offset % 512 = 0) (h : firstSector m e + offset / 512 < 2 ^ 32) :
    startTaken m e offset = firstSector m e + offset / 512 := by
  unfold startTaken firstSector at *
  rw [m.blockInBytes_eq] at *
  generalize e.partStartLba = S at *
  rcases m.blockInSecs_cases with hn | hn | hn | hn <;> simp only [hn] at * <;>
    split_ifs at * <;> omega

theorem endSector_eq (h : e.partStartLba ≤ e.partEndLba) :
    512 * endSector m e = 512 * firstSector m e + partBytes m e := by
  unfold endSector firstSector partBytes
  rw [m.blockInBytes_eq]
  rcases m.blockInSecs_cases with h | h | h | h <;> rw [h] <;> omega

/-- Rounding up a size does not pass a whole number of blocks. -/
theorem roundup_le_size {n x size : ℕ} (hn : n = 1 ∨ n = 2 ∨ n = 4 ∨ n = 8)
    (hx : x * (512 * n) < 2 ^ 42) (hs : size ≤ x * (512 * n)) :
    min ((size + 512 * n - 1) % 2 ^ 64 / (512 * n) * (512 * n)) (x * (512 * n)) =
      (size + 512 * n - 1) / (512 * n) * (512 * n) := by
  rcases hn with rfl | rfl | rfl | rfl <;> omega

/-- In a partition below 4 TiB, a size that fits is taken in whole blocks. -/
theorem bytesTaken_eq {size : ℕ} (h : e.partStartLba ≤ e.partEndLba)
    (hP : partBytes m e < 2 ^ 42) (hs : size ≤ partBytes m e) :
    bytesTaken m e size = if size = 0 then partBytes m e
      else (size + m.blockInBytes - 1) / m.blockInBytes * m.blockInBytes := by
  have hS := e.start_lt
  have hP64 : partBytes64 m e = partBytes m e := by
    unfold partBytes64
    rw [partBytes, m.blockInBytes_eq] at *
    rcases m.blockInSecs_cases with hn | hn | hn | hn <;> rw [hn] at hP ⊢ <;> omega
  rw [bytesTaken, hP64]
  split_ifs with h0
  · exact min_self _
  · rw [partBytes, m.blockInBytes_eq] at hP hs ⊢
    exact roundup_le_size m.blockInSecs_cases hP hs

/-- The sectors of an access that was not refused lie in the partition, and its
request fits, exactly if the request is in place. -/
theorem rawInPlace_iff {offset size : ℕ} (ho : offset < 2 ^ 64)
    (hoff : ¬ OffsetRefused m e offset) (hsize : ¬ SizeRefused m e offset size) :
    (firstSector m e ≤ startTaken m e offset ∧
      startTaken m e offset + bytesTaken m e size % 2 ^ 41 / 512 ≤ endSector m e) ∧
      offset + size ≤ partBytes m e ↔ RawInPlace m e offset size := by
  have h512 := sector_dvd_bytesTaken m e size
  have hlast : lastTaken m e < 2 ^ 32 := Nat.mod_lt _ (by norm_num)
  obtain ⟨ho5, hlt⟩ : offset % 512 = 0 ∧ startTaken m e offset < 2 ^ 32 := by
    unfold OffsetRefused at hoff
    refine ⟨by omega, ?_⟩
    rcases Nat.eq_zero_or_pos offset with rfl | hpos
    · exact Nat.mod_lt _ (by norm_num)
    · omega
  have hpos : 0 < bytesTaken m e size % 2 ^ 41 := by
    unfold SizeRefused at hsize
    omega
  rw [RawInPlace, firstSector_le_startTaken_iff ho ho5 hlt]
  constructor
  · rintro ⟨⟨hwrap, hend⟩, hfit⟩
    have hstart := startTaken_eq ho5 hwrap
    have hSE : e.partStartLba ≤ e.partEndLba := by
      by_contra hES
      have : endSector m e ≤ firstSector m e := Nat.mul_le_mul_right _ (by omega)
      omega
    have hE := endSector_eq (m := m) hSE
    refine ⟨hSE, hwrap, hfit, ?_⟩
    rcases Nat.lt_or_ge (partBytes m e) (2 ^ 42) with hP | hP
    · rw [← bytesTaken_eq hSE hP (by omega)]
      omega
    · have hmod := Nat.mod_lt (if size = 0 then partBytes m e
        else (size + m.blockInBytes - 1) / m.blockInBytes * m.blockInBytes)
        (show 2 ^ 41 > 0 by norm_num)
      omega
  · rintro ⟨hSE, hwrap, hfit, hroom⟩
    have hstart := startTaken_eq ho5 hwrap
    have hE := endSector_eq (m := m) hSE
    refine ⟨⟨hwrap, ?_⟩, hfit⟩
    rcases Nat.lt_or_ge (partBytes m e) (2 ^ 42) with hP | hP
    · rw [← bytesTaken_eq hSE hP (by omega)] at hroom
      omega
    · have hmod := Nat.mod_lt (bytesTaken m e size) (show 2 ^ 41 > 0 by norm_num)
      omega

section Confinement

variable {p : Platform} {m : Manager} {op : PartOp} {partE : PartEntry} {mem : ℕ → UInt8}
  {buf offset size : ℕ}

theorem gptAccessPart_of_refused (hmagic : partE.magic = partEntryMagic)
    (hraw : ¬ (op = .write ∧ partE.gptEntry.Sparse)) (h : RawRefused p m partE offset size) :
    (gptAccessPart p m op (some partE) mem buf offset size).accesses = [] := by
  simp only [gptAccessPart, hmagic, hraw, not_true, ne_eq, if_false]
  by_cases h1 : OffsetRefused m partE.gptEntry offset
  · simp only [(gptGetOffsetInSecs_eq_inv_iff m partE.gptEntry offset).2 h1, if_true]
  rw [gptGetOffsetInSecs_of_not_refused h1]
  split
  · rfl
  by_cases h2 : SizeRefused m partE.gptEntry offset size
  · simp only [(gptGetSizeInSecs_eq_zero_iff m partE.gptEntry offset size).2 h2, if_true]
  have h3 : ¬ gptOpenDev p m partE.lun := by
    unfold RawRefused at h
    tauto
  split
  · rfl
  · simp [gptAccessDisk, h3]

theorem gptAccessPart_of_not_refused (hmagic : partE.magic = partEntryMagic)
    (hraw : ¬ (op = .write ∧ partE.gptEntry.Sparse)) (h : ¬ RawRefused p m partE offset size) :
    (gptAccessPart p m op (some partE) mem buf offset size).accesses =
      [⟨op, ⟨m.devId, partE.lun⟩, buf, startTaken m partE.gptEntry offset,
        bytesTaken m partE.gptEntry size % 2 ^ 41 / 512⟩] := by
  obtain ⟨h1, h2, h3⟩ : ¬ OffsetRefused m partE.gptEntry offset ∧
      ¬ SizeRefused m partE.gptEntry offset size ∧ gptOpenDev p m partE.lun := by
    unfold RawRefused at h
    tauto
  have hstart := mt (gptGetOffsetInSecs_eq_inv_iff m partE.gptEntry offset).1 h1
  have hcount := mt (gptGetSizeInSecs_eq_zero_iff m partE.gptEntry offset size).1 h2
  rw [gptGetOffsetInSecs_of_not_refused h1] at hstart
  rw [gptGetSizeInSecs_of_not_refused h2] at hcount
  simp only [gptAccessPart, hmagic, hraw, not_true, ne_eq, if_false, hstart, hcount,
    gptGetOffsetInSecs_of_not_refused h1, gptGetSizeInSecs_of_not_refused h2, gptAccessDisk, h3,
    if_true]

/-- The one access of a request that is not for a sparse image. -/
theorem inside_iff {start count : ℕ} (hc : 0 < count) :
    Inside m partE ⟨op, ⟨m.devId, partE.lun⟩, buf, start, count⟩ ↔
      firstSector m partE.gptEntry ≤ start ∧ start + count ≤ endSector m partE.gptEntry := by
  constructor
  · intro h
    obtain ⟨-, hlo, -⟩ := h start ⟨le_rfl, by dsimp only; omega⟩
    obtain ⟨-, -, hhi⟩ := h (start + count - 1) ⟨by dsimp only; omega, by dsimp only; omega⟩
    exact ⟨hlo, by omega⟩
  · rintro ⟨hlo, hhi⟩ s ⟨h1, h2⟩
    dsimp only at h1 h2
    exact ⟨rfl, by omega, by omega⟩

/-- Requests that are not for a sparse image. -/
theorem confined_raw_iff (ho : offset < 2 ^ 64) (hmagic : partE.magic = partEntryMagic)
    (hraw : ¬ (op = .write ∧ partE.gptEntry.Sparse)) :
    Confined p m op partE mem buf offset size ↔
      RawRefused p m partE offset size ∨ RawInPlace m partE.gptEntry offset size := by
  by_cases h : RawRefused p m partE offset size
  · simp [Confined, gptAccessPart_of_refused hmagic hraw h, h]
  · have hoff : ¬ OffsetRefused m partE.gptEntry offset := fun h' => h (.inl h')
    have hsize : ¬ SizeRefused m partE.gptEntry offset size := fun h' => h (.inr (.inl h'))
    have hcount : 0 < bytesTaken m partE.gptEntry size % 2 ^ 41 / 512 := by
      have h512 := sector_dvd_bytesTaken m partE.gptEntry size
      unfold SizeRefused at hsize
      omega
    simp only [Confined, gptAccessPart_of_not_refused hmagic hraw h, List.mem_singleton, forall_eq,
      inside_iff hcount, RequestFits, if_neg hraw, h, false_or]
    exact rawInPlace_iff ho hoff hsize

/-- The writes of a sparse image are those of its chunks. -/
theorem mem_writesOf_iff (hp : p.Writes) (base : ℕ) (w : ℕ × ℕ) :
    w ∈ writesOf base (sparseChunks p mem buf) ↔
      ∃ a ∈ (writeCompressedExt4 p mem buf base).accesses, a.dev = scsi0 ∧ (a.start, a.count) = w := by
  obtain ⟨hdev, hmap⟩ := chunkLoop_of_writes hp buf (totalChunks mem buf) ⟨mem, buf + 28, base⟩
  rw [← walkChunks_sectorBase p buf _ 0] at hmap
  rw [sparseChunks, ← hmap, List.mem_map]
  exact ⟨fun ⟨a, ha, h⟩ => ⟨a, ha, hdev a ha, h⟩, fun ⟨a, ha, _, h⟩ => ⟨a, ha, h⟩⟩

/-- The writes of a sparse image that fits stay inside when they start behind the
start of the partition and go to its device. -/
theorem inside_sparse_iff (hp : p.Writes)
    (hfit : ChunksFit (endSector m partE.gptEntry) (firstSector m partE.gptEntry)
      (sparseChunks p mem buf)) :
    (∀ a ∈ (writeCompressedExt4 p mem buf (u32 (firstSector m partE.gptEntry))).accesses,
      Inside m partE a) ↔ ChunksFrom (firstSector m partE.gptEntry) (firstSector m partE.gptEntry)
        (sparseChunks p mem buf) ∧
      (ChunksWrite (sparseChunks p mem buf) → scsi0 = ⟨m.devId, partE.lun⟩) := by
  have hdev := (chunkLoop_of_writes hp buf (totalChunks mem buf)
    ⟨mem, buf + 28, u32 (firstSector m partE.gptEntry)⟩).1
  have hmem : ∀ w, w ∈ writesOf (u32 (firstSector m partE.gptEntry)) (sparseChunks p mem buf) ↔ _ :=
    mem_writesOf_iff hp _
  rw [← writesOf_mem_iff _ _ hfit, ← exists_writesOf_iff _ (u32 (firstSector m partE.gptEntry))]
  constructor
  · intro h
    refine ⟨fun w hw s h1 h2 => ?_, fun ⟨w, hw, hpos⟩ => ?_⟩
    · obtain ⟨a, ha, -, rfl⟩ := (hmem w).1 hw
      exact (h a ha s ⟨h1, h2⟩).2
    · obtain ⟨a, ha, had, rfl⟩ := (hmem w).1 hw
      exact had.symm.trans (h a ha a.start ⟨le_rfl, Nat.lt_add_of_pos_right hpos⟩).1
  · rintro ⟨hrange, hlun⟩ a ha s ⟨h1, h2⟩
    have hw := (hmem _).2 ⟨a, ha, hdev a ha, rfl⟩
    exact ⟨(hdev a ha).trans (hlun ⟨_, hw, by dsimp only; omega⟩), hrange _ hw s h1 h2⟩

theorem confined_sparse_iff (hmagic : partE.magic = partEntryMagic)
    (hsparse : op = .write ∧ partE.gptEntry.Sparse) :
    Confined p m op partE mem buf offset size ↔
      checkCompressExt4 mem buf (partBytes64 m partE.gptEntry) ≠ some 0 ∨ ¬ p.Writes ∨
        SparseInPlace p m partE mem buf := by
  by_cases hcheck : checkCompressExt4 mem buf (partBytes64 m partE.gptEntry) = some 0
  · have hacc : (gptAccessPart p m op (some partE) mem buf offset size).accesses =
        (writeCompressedExt4 p mem buf (u32 (firstSector m partE.gptEntry))).accesses := by
      simp [gptAccessPart, hmagic, hsparse, gptGetPartSizeInBytes_eq, hcheck, startInSecs_eq]
    by_cases hp : p.Writes
    · have hfits : RequestFits p m op partE.gptEntry mem buf offset size ↔
          ChunksFit (endSector m partE.gptEntry) (firstSector m partE.gptEntry)
            (sparseChunks p mem buf) := by
        rw [RequestFits, if_pos hsparse]
      simp only [Confined, hacc, hfits, hcheck, hp, ne_eq, not_true, false_or, SparseInPlace]
      by_cases hfit : ChunksFit (endSector m partE.gptEntry) (firstSector m partE.gptEntry)
          (sparseChunks p mem buf)
      · simp only [hfit, and_true, true_and]
        exact inside_sparse_iff hp hfit
      · -- something is written, so the image would have to fit
        obtain ⟨w, hw⟩ := List.exists_mem_of_ne_nil _
          (mt (chunksFit_of_writesOf_eq_nil _ (u32 (firstSector m partE.gptEntry)) _) hfit)
        obtain ⟨a, ha, -, -⟩ := (mem_writesOf_iff hp _ w).1 hw
        exact ⟨fun h => absurd (h a ha).2 hfit, fun h => absurd h.1 hfit⟩
    · simp [Confined, hacc, writeCompressedExt4, chunkLoop_of_not_writes hp, hp]
  · have hacc : (gptAccessPart p m op (some partE) mem buf offset size).accesses = [] := by
      simp only [gptAccessPart, hmagic, hsparse, gptGetPartSizeInBytes_eq]
      rcases hc : checkCompressExt4 mem buf (partBytes64 m partE.gptEntry) with _ | r
      · simp
      · have hr : r ≠ 0 := fun h0 => hcheck (h0 ▸ hc)
        simp [hr]
    simp [Confined, hacc, hcheck]

/-- **Which requests are confined.**  For every entry of the manager's cache, every
operation, offset and size: the device calls of `gpt_access_part` stay inside the
partition and a request that does not fit makes none, exactly if the request is
refused or in place. -/
theorem gpt_access_part_confined_iff {chunks : ℕ → GptChunk}
    (hmem : partE ∈ gptBuildEntryTableCache chunks) (ho : offset < 2 ^ 64) :
    Confined p m op partE mem buf offset size ↔ InPlace p m op partE mem buf offset size := by
  have hmagic := magic_of_mem_cache hmem
  rw [InPlace]
  split_ifs with h
  · exact confined_sparse_iff hmagic h
  · exact confined_raw_iff ho hmagic h

end Confinement

/-! A UFS device with blocks of 4 KiB and a partition in its blocks 128 and 129, the
sectors 1024 to 1039. -/

theorem sector_dvd_ufs : 512 ∣ 4096 := ⟨8, rfl⟩

theorem block_dvd_ufs : 4096 ∣ 4096 := ⟨1, rfl⟩

/-- The UFS geometry. -/
def ufsManager : Manager := ⟨.ufs, 4096, sector_dvd_ufs, block_dvd_ufs⟩

/-- A UFS boot device all of whose calls succeed. -/
def ufsPlatform : Platform := ⟨.ufs, fun _ => true, Access.count, Access.count⟩

/-- A GPT with the one entry. -/
def twoBlockGpt : GptChunk := ⟨gptHeaderSignature, 1, fun _ => ⟨128, 129, 1, by norm_num, by norm_num⟩⟩

/-- The cached entry. -/
def twoBlockPart : PartEntry := ⟨partEntryMagic, 0, twoBlockGpt.entries 0⟩

theorem twoBlockPart_mem : twoBlockPart ∈ gptBuildEntryTableCache fun _ => twoBlockGpt := by
  simp [gptBuildEntryTableCache, twoBlockPart, twoBlockGpt]

/-- The second block of the partition, read by itself. -/
theorem gpt_access_part_confined_second_block :
    InPlace ufsPlatform ufsManager .read twoBlockPart (fun _ => 0) 0 4096 4096 ∧
      Confined ufsPlatform ufsManager .read twoBlockPart (fun _ => 0) 0 4096 4096 := by
  have h : InPlace ufsPlatform ufsManager .read twoBlockPart (fun _ => 0) 0 4096 4096 := by
    rw [InPlace, if_neg (by simp)]
    right
    norm_num [RawInPlace, firstSector, partBytes, Manager.blockInSecs, ufsManager, twoBlockPart,
      twoBlockGpt]
  exact ⟨h, (gpt_access_part_confined_iff twoBlockPart_mem (by norm_num)).2 h⟩

/-- Two blocks read from the second block on: the 16 sectors from 1032 on, eight of
them behind the partition. -/
theorem gpt_access_part_overruns :
    twoBlockPart ∈ gptBuildEntryTableCache (fun _ => twoBlockGpt) ∧
      ¬ Confined ufsPlatform ufsManager .read twoBlockPart (fun _ => 0) 0 4096 8192 := by
  refine ⟨twoBlockPart_mem, fun h => ?_⟩
  have hacc : (gptAccessPart ufsPlatform ufsManager .read (some twoBlockPart) (fun _ => 0) 0 4096
      8192).accesses = [⟨.read, ⟨.ufs, 0⟩, 0, 1032, 16⟩] := by
    decide +kernel
  have hin := (h _ (by rw [hacc]; exact List.mem_singleton.2 rfl)).1 1040 (by simp [Access.Touches])
  norm_num [endSector, Manager.blockInSecs, ufsManager, twoBlockPart, twoBlockGpt] at hin

end Gpt
end LittleKernel
