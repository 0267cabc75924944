/-
# Sparse images

`platform/exynos9630/fastboot/decompress_ext4.c`: `check_compress_ext4` looks at
the header of a downloaded image, `write_compressed_ext4` walks through its
chunks and writes the raw and the fill chunks to the device.

The image lies in memory at `img_base`.  The walk reads one chunk header after
another, each found through the `total_size` of the one before, and it keeps the
sector to write at in the 32-bit `sector_base`.  Fill chunks are staged at
`i_buf_for_sparse`, in the same memory; a header is read when the walk gets to
it, so a staged pattern that reaches the image is seen by the walk.
-/

import LittleKernel.Lib.Bytes
import LittleKernel.Lib.Memory
import LittleKernel.Lib.Word

namespace LittleKernel
namespace Gpt

open Memory Word

/-- What `get_boot_device` answers (`include/dev/boot.h`). -/
inductive BootDevice
  | mmcsd | emmc | usb | ufs
  deriving DecidableEq

/-- `enum __boot_dev_id`. -/
inductive BootDevId
  | mmc | ufs | none
  deriving DecidableEq

/-- A block device by its name: `"mmc"` or `"scsi"` and the number of the logical
unit. -/
structure Dev where
  id : BootDevId
  lun : ℕ
  deriving DecidableEq

/-- `enum __part_op`. -/
inductive PartOp
  | read | write | erase
  deriving DecidableEq

/-- One call of `new_read`, `new_write` or `new_erase`: `count` sectors of 512
bytes from `start` on, to or from the memory at `buf`. -/
structure Access where
  op : PartOp
  dev : Dev
  buf : ℕ
  start : ℕ
  count : ℕ
  deriving DecidableEq

/-- The call names sector `s`. -/
def Access.Touches (a : Access) (s : ℕ) : Prop := a.start ≤ s ∧ s < a.start + a.count

/-- The platform around the partition code: the boot device, which names `bio_open`
finds, the number of sectors a device call returns, and how many it has transferred:
`bio_new_write` may drop sectors of a request and return the number asked for. -/
structure Platform where
  bootDevice : BootDevice
  opens : Dev → Bool
  done : Access → ℕ
  moved : Access → ℕ

/-- A device call succeeds: all its sectors are transferred, and it returns their number. -/
def Platform.Completes (p : Platform) (a : Access) : Prop :=
  p.done a = a.count ∧ p.moved a = a.count

/-- The device calls a function made, in order, and its result; `none` if it does
not come back. -/
structure Outcome where
  accesses : List Access
  ret : Option ℤ
  deriving DecidableEq

/-- An unsigned field of `n` bytes at address `a`. -/
def load (mem : ℕ → UInt8) (a n : ℕ) : ℕ := Bytes.ofLe (window mem a n)

section FileHeader

variable (mem : ℕ → UInt8) (img : ℕ)

/-- `file_header->magic`. -/
def magic : ℕ := load mem img 4

/-- `file_header->major`. -/
def major : ℕ := load mem (img + 4) 2

/-- `file_header->file_header_size`. -/
def fileHeaderSize : ℕ := load mem (img + 8) 2

/-- `file_header->chunk_header_size`. -/
def chunkHeaderSize : ℕ := load mem (img + 10) 2

/-- `file_header->block_size`. -/
def blockSize : ℕ := load mem (img + 12) 4

/-- `file_header->total_blocks`. -/
def totalBlocks : ℕ := load mem (img + 16) 4

/-- `file_header->total_chunks`. -/
def totalChunks : ℕ := load mem (img + 20) 4

end FileHeader

/-- `check_compress_ext4`: `none` is the endless loop after "Invalid Volume
Size!". -/
def checkCompressExt4 (mem : ℕ → UInt8) (img partiSize : ℕ) : Option ℤ :=
  if magic mem img ≠ 0xED26FF3A then some (-1)
  else if major mem img ≠ 1 then some (-1)
  else if fileHeaderSize mem img ≠ 28 then some (-1)
  else if chunkHeaderSize mem img ≠ 12 then some (-1)
  else if blockSize mem img ≠ 0x1000 then some (-1)
  else if partiSize / blockSize mem img < totalBlocks mem img then none
  else some 0

/-- `chunk_header->type`. -/
inductive ChunkType
  | raw | fill | dontCare | invalid
  deriving DecidableEq

/-- A chunk as its header describes it: its type and the sectors it stands for. -/
structure Chunk where
  type : ChunkType
  sectors : ℕ
  deriving DecidableEq

/-- The chunk is one that `write_compressed_ext4` writes. -/
def Chunk.Written (c : Chunk) : Prop := c.type = .raw ∨ c.type = .fill

instance (c : Chunk) : Decidable c.Written := inferInstanceAs (Decidable (_ ∨ _))

/-- The local variables of `write_compressed_ext4`, and the memory. -/
structure Walk where
  mem : ℕ → UInt8
  imgBase : ℕ
  sectorBase : ℕ

/-- The `EXT4_CHUNK_TYPE_` constants. -/
def chunkType (type : ℕ) : ChunkType :=
  if type = 0xCAC1 then .raw
  else if type = 0xCAC2 then .fill
  else if type = 0xCAC3 then .dontCare
  else .invalid

/-- The chunk header at `img_base`; `chunk_in_bytes / PART_SECTOR_SIZE` before it is
cut to 32 bits. -/
def Walk.chunk (img : ℕ) (w : Walk) : Chunk where
  type := chunkType (load w.mem w.imgBase 2)
  sectors := load w.mem (w.imgBase + 4) 4 * blockSize w.mem img / 512

/-- `CFG_FASTBOOT_MMC_BUFFER`, where `i_buf_for_sparse` points. -/
def iBufForSparse : ℕ := 0xC0000000

/-- The device `write_raw_chunk` writes to. -/
def scsi0 : Dev := ⟨.ufs, 0⟩

/-- `write_raw_chunk` at the devices; without a UFS boot device it writes nothing,
and a device that does not open is used all the same. -/
def writeRawChunk (p : Platform) (data sector sectorSize : ℕ) : Outcome :=
  if p.bootDevice ≠ .ufs then ⟨[], some 0⟩
  else if p.opens scsi0 = false then ⟨[], none⟩
  else
    let a : Access := ⟨.write, scsi0, data, sector, sectorSize⟩
    ⟨[a], some (if p.done a = sectorSize then 0 else -1)⟩

/-- The staging of a raw chunk: the memory and the address it is written from. -/
def stageRaw (p : Platform) (mem : ℕ → UInt8) (data sectorSize : ℕ) : (ℕ → UInt8) × ℕ :=
  if p.bootDevice ≠ .ufs ∧ data % 8 ≠ 0 then
    (copy mem iBufForSparse mem data (sectorSize * 512), iBufForSparse)
  else (mem, data)

/-- The loop that repeats `pattern`: its counter is 32 bits wide, so it has no end
from `2 ^ 32` words on. -/
def stageFill (mem : ℕ → UInt8) (pattern sectorSize : ℕ) : Option (ℕ → UInt8) :=
  if 2 ^ 32 ≤ sectorSize * 128 then none
  else some (copy mem iBufForSparse (fun i => (Bytes.le 4 pattern).getD (i % 4) 0) 0
    (sectorSize * 512))

/-- The end of an iteration: `img_base += chunk_header->total_size`. -/
def Walk.next (w : Walk) (mem : ℕ → UInt8) (sectorSize : ℕ) : Walk where
  mem := mem
  imgBase := w.imgBase + load mem (w.imgBase + 8) 4
  sectorBase := u32 (w.sectorBase + sectorSize)

/-- One iteration over the chunk at `img_base`: the device calls and the next
state, `none` if the iteration does not end. -/
def chunkStep (p : Platform) (img : ℕ) (w : Walk) : List Access × Option Walk :=
  let sectorSize := u32 (w.chunk img).sectors
  match (w.chunk img).type with
  | .raw =>
    let s := stageRaw p w.mem (w.imgBase + 12) sectorSize
    let o := writeRawChunk p s.2 w.sectorBase sectorSize
    (o.accesses, o.ret.map fun _ => w.next s.1 sectorSize)
  | .fill =>
    match stageFill w.mem (load w.mem (w.imgBase + 12) 4) sectorSize with
    | none => ([], none)
    | some mem =>
      let o := writeRawChunk p iBufForSparse w.sectorBase sectorSize
      (o.accesses, o.ret.map fun _ => w.next mem sectorSize)
  | .dontCare => ([], some (w.next w.mem sectorSize))
  | .invalid => ([], some (w.next w.mem sectorSize))

/-- `while(total_chunks)`. -/
def chunkLoop (p : Platform) (img : ℕ) : ℕ → Walk → Outcome
  | 0, _ => ⟨[], some 0⟩
  | k + 1, w =>
    match chunkStep p img w with
    | (as, none) => ⟨as, none⟩
    | (as, some w') =>
      let o := chunkLoop p img k w'
      ⟨as ++ o.accesses, o.ret⟩

/-- `write_compressed_ext4`. -/
def writeCompressedExt4 (p : Platform) (mem : ℕ → UInt8) (img sectorBase : ℕ) : Outcome :=
  chunkLoop p img (totalChunks mem img) ⟨mem, img + 28, sectorBase⟩

/-! ## The chunks of an image and what is written of them -/

/-- The chunks that the walk gets through. -/
def walkChunks (p : Platform) (img : ℕ) : ℕ → Walk → List Chunk
  | 0, _ => []
  | k + 1, w =>
    match chunkStep p img w with
    | (_, none) => []
    | (_, some w') => w.chunk img :: walkChunks p img k w'

/-- The chunks of the image at `img`.  The sector they are written from does not
matter to the walk. -/
def sparseChunks (p : Platform) (mem : ℕ → UInt8) (img : ℕ) : List Chunk :=
  walkChunks p img (totalChunks mem img) ⟨mem, img + 28, 0⟩

/-- `write_raw_chunk` reaches its device. -/
def Platform.Writes (p : Platform) : Prop := p.bootDevice = .ufs ∧ p.opens scsi0 = true

instance (p : Platform) : Decidable p.Writes := inferInstanceAs (Decidable (_ ∧ _))

/-- First sector and number of sectors of the writes for the chunks `cs`, from
`sector_base` on. -/
def writesOf : ℕ → List Chunk → List (ℕ × ℕ)
  | _, [] => []
  | base, c :: cs =>
    (if c.Written then [(base, u32 c.sectors)] else []) ++ writesOf (u32 (base + u32 c.sectors)) cs

variable {p : Platform}

theorem writeRawChunk_of_writes (hp : p.Writes) (data sector n : ℕ) :
    ∃ r, writeRawChunk p data sector n = ⟨[⟨.write, scsi0, data, sector, n⟩], some r⟩ := by
  obtain ⟨hufs, hopen⟩ := hp
  exact ⟨_, by simp only [writeRawChunk, hufs, hopen]; rfl⟩

theorem writeRawChunk_of_not_writes (hp : ¬ p.Writes) (data sector n : ℕ) :
    (writeRawChunk p data sector n).accesses = [] := by
  unfold writeRawChunk
  split_ifs with h1 h2
  · rfl
  · rfl
  · exact absurd ⟨not_not.1 h1, by simpa using h2⟩ hp

/-- An iteration without a device to write to. -/
theorem chunkStep_of_not_writes (hp : ¬ p.Writes) (img : ℕ) (w : Walk) :
    (chunkStep p img w).1 = [] := by
  have h := writeRawChunk_of_not_writes hp
  cases ht : (w.chunk img).type with
  | raw => simp [chunkStep, ht, h]
  | fill =>
    cases hs : stageFill w.mem (load w.mem (w.imgBase + 12) 4) (u32 (w.chunk img).sectors) with
    | none => simp [chunkStep, ht, hs]
    | some mem => simp [chunkStep, ht, hs, h]
  | dontCare => simp [chunkStep, ht]
  | invalid => simp [chunkStep, ht]

theorem chunkLoop_of_not_writes (hp : ¬ p.Writes) (img k : ℕ) (w : Walk) :
    (chunkLoop p img k w).accesses = [] := by
  induction k generalizing w with
  | zero => rfl
  | succ k ih =>
    have h := chunkStep_of_not_writes hp img w
    rw [chunkLoop]
    split <;> rename_i heq <;> simp_all

/-- **An iteration with a device.**  It hangs before any device call, or it makes
the one write that its chunk asks for and moves `sector_base` on. -/
theorem chunkStep_of_writes (hp : p.Writes) (img : ℕ) (w : Walk) :
    chunkStep p img w = ([], none) ∨
    ∃ as w', chunkStep p img w = (as, some w') ∧ (∀ a ∈ as, a.dev = scsi0) ∧
      as.map (fun a => (a.start, a.count)) =
        (if (w.chunk img).Written then [(w.sectorBase, u32 (w.chunk img).sectors)] else []) ∧
      w'.sectorBase = u32 (w.sectorBase + u32 (w.chunk img).sectors) := by
  cases ht : (w.chunk img).type with
  | raw =>
    obtain ⟨r, hr⟩ := writeRawChunk_of_writes hp
      (stageRaw p w.mem (w.imgBase + 12) (u32 (w.chunk img).sectors)).2 w.sectorBase
      (u32 (w.chunk img).sectors)
    right
    simp [chunkStep, ht, hr, Chunk.Written, Walk.next]
  | fill =>
    cases hs : stageFill w.mem (load w.mem (w.imgBase + 12) 4) (u32 (w.chunk img).sectors) with
    | none => exact .inl (by simp [chunkStep, ht, hs])
    | some mem =>
      obtain ⟨r, hr⟩ := writeRawChunk_of_writes hp iBufForSparse w.sectorBase
        (u32 (w.chunk img).sectors)
      right
      simp [chunkStep, ht, hs, hr, Chunk.Written, Walk.next]
  | dontCare => right; simp [chunkStep, ht, Chunk.Written, Walk.next]
  | invalid => right; simp [chunkStep, ht, Chunk.Written, Walk.next]

/-- **The writes of a walk** are those of the chunks it gets through. -/
theorem chunkLoop_of_writes (hp : p.Writes) (img k : ℕ) (w : Walk) :
    (∀ a ∈ (chunkLoop p img k w).accesses, a.dev = scsi0) ∧
    (chunkLoop p img k w).accesses.map (fun a => (a.start, a.count)) =
      writesOf w.sectorBase (walkChunks p img k w) := by
  induction k generalizing w with
  | zero => simp [chunkLoop, walkChunks, writesOf]
  | succ k ih =>
    rcases chunkStep_of_writes hp img w with h | ⟨as, w', h, hdev, hmap, hbase⟩
    · simp [chunkLoop, walkChunks, writesOf, h]
    · obtain ⟨ihdev, ihmap⟩ := ih w'
      simp only [chunkLoop, walkChunks, h, writesOf]
      refine ⟨fun a ha => ?_, by rw [List.map_append, hmap, ihmap, hbase]⟩
      rcases List.mem_append.1 ha with ha | ha
      · exact hdev a ha
      · exact ihdev a ha

/-- The sector written at does not decide whether `write_raw_chunk` returns. -/
theorem writeRawChunk_ret_map {β : Type} (p : Platform) (data sector sector' n : ℕ) (x : β) :
    (writeRawChunk p data sector n).ret.map (fun _ => x) =
      (writeRawChunk p data sector' n).ret.map (fun _ => x) := by
  unfold writeRawChunk
  split_ifs <;> rfl

/-- Where the walk goes does not depend on the sector written at. -/
theorem chunkStep_sectorBase (p : Platform) (img b : ℕ) (w : Walk) :
    (chunkStep p img { w with sectorBase := b }).2 = (chunkStep p img w).2.map fun w' =>
      { w' with sectorBase := u32 (b + u32 (w.chunk img).sectors) } := by
  have hc : Walk.chunk img { w with sectorBase := b } = w.chunk img := rfl
  cases ht : (w.chunk img).type with
  | raw =>
    simp only [chunkStep, hc, ht, Option.map_map, Function.comp_def]
    exact writeRawChunk_ret_map _ _ _ _ _ _
  | fill =>
    cases hs : stageFill w.mem (load w.mem (w.imgBase + 12) 4) (u32 (w.chunk img).sectors) with
    | none => simp [chunkStep, hc, ht, hs]
    | some mem =>
      simp only [chunkStep, hc, ht, hs, Option.map_map, Function.comp_def]
      exact writeRawChunk_ret_map _ _ _ _ _ _
  | dontCare => simp [chunkStep, hc, ht, Walk.next]
  | invalid => simp [chunkStep, hc, ht, Walk.next]

/-- The chunks met do not depend on the sector written at. -/
theorem walkChunks_sectorBase (p : Platform) (img k b : ℕ) (w : Walk) :
    walkChunks p img k { w with sectorBase := b } = walkChunks p img k w := by
  induction k generalizing w b with
  | zero => rfl
  | succ k ih =>
    have h := chunkStep_sectorBase p img b w
    rw [walkChunks, walkChunks]
    rcases h1 : chunkStep p img { w with sectorBase := b } with ⟨as, _ | w1⟩ <;>
      rcases h2 : chunkStep p img w with ⟨bs, _ | w2⟩ <;>
      simp_all [Walk.chunk]

/-- Every written chunk ends at or before sector `hi`, the first chunk starting at
`pos`. -/
def ChunksFit (hi : ℕ) : ℕ → List Chunk → Prop
  | _, [] => True
  | pos, c :: cs => (c.Written → 0 < c.sectors → pos + c.sectors ≤ hi) ∧
      ChunksFit hi (pos + c.sectors) cs

/-- No chunk with sectors to write starts, in 32 bits, before sector `lo`. -/
def ChunksFrom (lo : ℕ) : ℕ → List Chunk → Prop
  | _, [] => True
  | pos, c :: cs => (c.Written → c.sectors % 2 ^ 32 ≠ 0 → lo ≤ pos % 2 ^ 32) ∧
      ChunksFrom lo (pos + c.sectors) cs

/-- Some chunk has sectors to write. -/
def ChunksWrite (cs : List Chunk) : Prop := ∃ c ∈ cs, c.Written ∧ c.sectors % 2 ^ 32 ≠ 0

/-- Chunks that fit below `hi` are written at sectors from `lo` up to `hi` when no
32-bit start falls before `lo`, and only then. -/
theorem writesOf_mem_iff {lo hi : ℕ} (cs : List Chunk) (pos : ℕ) (hfit : ChunksFit hi pos cs) :
    (∀ w ∈ writesOf (u32 pos) cs, ∀ s, w.1 ≤ s → s < w.1 + w.2 → lo ≤ s ∧ s < hi) ↔
      ChunksFrom lo pos cs := by
  induction cs generalizing pos with
  | nil => simp [writesOf, ChunksFrom]
  | cons c cs ih =>
    obtain ⟨hc, hcs⟩ := hfit
    have hbase : u32 (u32 pos + u32 c.sectors) = u32 (pos + c.sectors) := by
      simp [u32]
    rw [writesOf, ChunksFrom, hbase, ← ih _ hcs, List.forall_mem_append]
    refine and_congr_left fun _ => ?_
    by_cases hw : c.Written
    · rw [if_pos hw]
      have hle := Nat.mod_le pos (2 ^ 32)
      have hle' := Nat.mod_le c.sectors (2 ^ 32)
      constructor
      · intro h _ hne
        exact (h _ (List.mem_singleton.2 rfl) _ le_rfl (by simp only [u32]; omega)).1
      · intro h w hmem s h1 h2
        obtain rfl := List.mem_singleton.1 hmem
        simp only [u32] at h1 h2
        have hend := hc hw (by omega)
        have hstart := h hw (by omega)
        omega
    · simp [hw]

/-- Some write of the walk has sectors exactly if some chunk has them. -/
theorem exists_writesOf_iff (cs : List Chunk) (base : ℕ) :
    (∃ w ∈ writesOf base cs, 0 < w.2) ↔ ChunksWrite cs := by
  induction cs generalizing base with
  | nil => simp [writesOf, ChunksWrite]
  | cons c cs ih =>
    simp only [writesOf, ChunksWrite, List.mem_append, List.mem_cons, or_and_right, exists_or,
      exists_eq_left] at ih ⊢
    rw [ih]
    refine or_congr_left ?_
    by_cases hw : c.Written
    · simp [hw, u32, Nat.pos_iff_ne_zero]
    · simp [hw]

/-- Chunks of which nothing is written fit anywhere. -/
theorem chunksFit_of_writesOf_eq_nil {hi : ℕ} (cs : List Chunk) (base pos : ℕ)
    (h : writesOf base cs = []) : ChunksFit hi pos cs := by
  induction cs generalizing base pos with
  | nil => trivial
  | cons c cs ih =>
    rw [writesOf, List.append_eq_nil_iff] at h
    refine ⟨fun hw => ?_, ih _ _ h.2⟩
    simp [hw] at h

end Gpt
end LittleKernel
