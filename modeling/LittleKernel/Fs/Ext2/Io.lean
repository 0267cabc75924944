/-
# Reading an ext2 inode

`lib/fs/ext2/io.c`: `ext2_calculate_block_pointer_pos`,
`ext2_get_indirect_block_pointer_cache_block`, `file_block_to_fs_block` and
`ext2_read_inode`; `ext2_file_len` of `ext2.c`.

The block cache is a `Layer` here: three calls on a state of any type, a read and a get of
which may fail.  `none` is undefined: an assertion of the cache, or an index outside
`i_block` or outside a block.

The 15 pointers of an inode are direct ones, and below the last three a tree of blocks of
pointers.  `filePtr` and `fileByte` say what the pointers mean: which block holds a block
of the file, 0 for none, and the bytes.
-/

import LittleKernel.Lib.Memory
import LittleKernel.Lib.Bytes
import LittleKernel.Lib.Word

namespace LittleKernel
namespace Ext2

open Bytes Memory Word

/-! ### The blocks and the inode -/

/-- The contents of a block; its size is the superblock's. -/
abbrev Block := ℕ → UInt8

/-- `ext2_read_block`, `ext2_get_block` and `ext2_put_block`. -/
structure Layer (σ : Type) where
  readBlock : σ → ℕ → Option (σ × Option Block)
  getBlock : σ → ℕ → Option (σ × Option Block)
  putBlock : σ → ℕ → Option σ

/-- The fields of `struct ext2_super_block` that a read looks at. -/
structure SuperBlock where
  sLogBlockSize : ℕ
  sFeatureRoCompat : ℕ
  deriving DecidableEq

/-- `EXT2_BLOCK_SIZE`. -/
def SuperBlock.blockSize (sb : SuperBlock) : ℕ := u32 (1024 * 2 ^ sb.sLogBlockSize)

/-- `EXT2_ADDR_PER_BLOCK`. -/
def SuperBlock.addrPerBlock (sb : SuperBlock) : ℕ := sb.blockSize / 4

/-- `EXT2_NDIR_BLOCKS`, `EXT2_IND_BLOCK`, `EXT2_DIND_BLOCK` and `EXT2_TIND_BLOCK`. -/
def ndirBlocks : ℕ := 12
def indBlock : ℕ := 12
def dindBlock : ℕ := 13
def tindBlock : ℕ := 14

/-- `EXT2_N_BLOCKS`. -/
def nBlocks : ℕ := 15

/-- The fields of `struct ext2_inode` that a read looks at. -/
structure Inode where
  iMode : ℕ
  iSize : ℕ
  iSizeHigh : ℕ
  iBlock : List ℕ
  iSize_lt : iSize < 2 ^ 32
  iSizeHigh_lt : iSizeHigh < 2 ^ 32
  length_iBlock : iBlock.length = nBlocks
  deriving DecidableEq

/-- `S_ISREG`. -/
def sIsReg (mode : ℕ) : Prop := mode &&& 0o170000 = 0o100000

instance (mode : ℕ) : Decidable (sIsReg mode) := inferInstanceAs (Decidable (_ = _))

/-- A value of 64 bits as an `off_t`. -/
def offT (x : ℕ) : ℤ := if x < 2 ^ 63 then x else x - 2 ^ 64

/-- `ext2_file_len`. -/
def ext2FileLen (sb : SuperBlock) (inode : Inode) : ℤ :=
  if sb.sFeatureRoCompat &&& 2 ≠ 0 ∧ sIsReg inode.iMode then
    offT (inode.iSize + 2 ^ 32 * inode.iSizeHigh)
  else inode.iSize

/-- Entry `i` of a block of pointers. -/
def pointer (b : Block) (i : ℕ) : ℕ := ofLe (window b (4 * i) 4)

/-- `LE32(block[i])`, undefined outside the block. -/
def entry (sb : SuperBlock) (b : Block) (i : ℕ) : Option ℕ :=
  if i < sb.addrPerBlock then some (pointer b i) else none

section Model

variable {σ : Type} (L : Layer σ) (sb : SuperBlock) (inode : Inode)

/-! ### From a block of the file to a block of the disk -/

/-- `ext2_calculate_block_pointer_pos`: the level and the positions; `none` for -1. -/
def calculateBlockPointerPos (blockToFind : ℕ) : Option (ℕ × List ℕ) :=
  if blockToFind < ndirBlocks then some (0, [blockToFind])
  else
    let ptrPerBlock := sb.addrPerBlock
    let b := blockToFind - ndirBlocks
    if b < ptrPerBlock then some (1, [indBlock, b])
    else
      let b := b - ptrPerBlock
      let ptrPer2ndBlock := u32 (ptrPerBlock * ptrPerBlock)
      if b < ptrPer2ndBlock then some (2, [dindBlock, b / ptrPerBlock, b % ptrPerBlock])
      else
        let b := b - ptrPer2ndBlock
        if b < u32 (ptrPer2ndBlock * ptrPerBlock) then
          some (3, [tindBlock, b / ptrPer2ndBlock, b % ptrPer2ndBlock / ptrPerBlock,
            b % ptrPer2ndBlock % ptrPerBlock])
        else none

/-- The loop of `ext2_get_indirect_block_pointer_cache_block`, over the positions behind
the first: the last table with its block, which is not put, or nothing. -/
def dig : List ℕ → σ → ℕ → Option (σ × Option (Block × ℕ))
  | [], s, _ => some (s, none)
  | k :: pos, s, currentBlock =>
    if currentBlock = 0 then some (s, none)
    else do
      let (s, block) ← L.getBlock s currentBlock
      match block with
      | none => some (s, none)
      | some block =>
        if pos = [] then some (s, some (block, currentBlock))
        else do
          let next ← entry sb block k
          let s ← L.putBlock s currentBlock
          dig pos s next

/-- `ext2_get_indirect_block_pointer_cache_block`. -/
def getIndirectBlockPointerCacheBlock (s : σ) (level : ℕ) (pos : List ℕ) :
    Option (σ × Option (Block × ℕ)) :=
  if 3 < level ∨ level = 0 then some (s, none)
  else do
    let first ← pos.head?
    let block ← inode.iBlock[first]?
    dig L sb pos.tail s block

/-- `file_block_to_fs_block`, which does not look at what
`ext2_calculate_block_pointer_pos` returns. -/
def fileBlockToFsBlock (s : σ) (fileblock : ℕ) : Option (σ × ℕ) :=
  let (level, pos) := (calculateBlockPointerPos sb fileblock).getD (0, [])
  if level = 0 then inode.iBlock[fileblock]?.map fun block => (s, block)
  else do
    let (s, found) ← getIndirectBlockPointerCacheBlock L sb inode s level pos
    match found with
    | none => some (s, 0)
    | some (indTable, physBlock) => do
        let last ← pos.getLast?
        let block ← entry sb indTable last
        let s ← L.putBlock s physBlock
        some (s, block)

/-! ### The read -/

/-- A block of the file in a buffer that holds `stale`: zeros where there is no block, and
what was there when the read fails. -/
def loadFileBlock (s : σ) (fileBlock : ℕ) (stale : Block) : Option (σ × Block) := do
  let (s, physBlock) ← fileBlockToFsBlock L sb inode s fileBlock
  if physBlock = 0 then some (s, fun _ => 0)
  else do
    let (s, data) ← L.readBlock s physBlock
    some (s, data.getD stale)

/-- The locals of `ext2_read_inode`, with the memory at `_buf`; `buf` is `_buf` plus
`bytes_read`. -/
structure Progress where
  mem : ℕ → UInt8
  bytesRead : ℕ
  fileBlock : ℕ
  len : ℕ

/-- `n` bytes of a block, from `blockOffset` on, are copied out. -/
def Progress.copyOut (p : Progress) (data : Block) (blockOffset n : ℕ) : Progress where
  mem := copy p.mem p.bytesRead data blockOffset n
  bytesRead := p.bytesRead + n
  fileBlock := u32 (p.fileBlock + 1)
  len := p.len - n

/-- The partial first block. -/
def readFirst (temp : Block) (s : σ) (offset : ℕ) (p : Progress) : Option (σ × Progress) :=
  if offset % sb.blockSize ≠ 0 then do
    let (s, data) ← loadFileBlock L sb inode s p.fileBlock temp
    let blockOffset := offset % sb.blockSize
    some (s, p.copyOut data blockOffset (min p.len (sb.blockSize - blockOffset)))
  else some (s, p)

/-- The loop over the middle blocks, for at most `fuel` of them. -/
def readMiddle : ℕ → σ → Progress → Option (σ × Progress)
  | 0, _, _ => none
  | fuel + 1, s, p =>
    if sb.blockSize ≤ p.len then do
      let (s, data) ← loadFileBlock L sb inode s p.fileBlock fun i => p.mem (p.bytesRead + i)
      readMiddle fuel s (p.copyOut data 0 sb.blockSize)
    else some (s, p)

/-- The partial last block. -/
def readLast (temp : Block) (s : σ) (p : Progress) : Option (σ × Progress) :=
  if 0 < p.len then do
    let (s, data) ← loadFileBlock L sb inode s p.fileBlock temp
    some (s, p.copyOut data 0 p.len)
  else some (s, p)

/-- `ext2_read_inode`: the memory at the buffer and the result.  `temp` is what the buffers
on the stack start with.  A block is not empty, so `len + 1` passes of the loop are enough. -/
def ext2ReadInode (temp : Block) (s : σ) (mem : ℕ → UInt8) (offset len : ℕ) :
    Option (σ × (ℕ → UInt8) × ℤ) :=
  let fileSize := ext2FileLen sb inode
  if (offset : ℤ) > fileSize then some (s, mem, 0)
  else
    let len := if u64 (offset + len) ≥ fileSize.toNat then fileSize.toNat - offset else len
    if len = 0 then some (s, mem, 0)
    else do
      let (s, p) ← readFirst L sb inode temp s offset ⟨mem, 0, u32 (offset / sb.blockSize), len⟩
      let (s, p) ← readMiddle L sb inode (len + 1) s p
      let (s, p) ← readLast L sb inode temp s p
      some (s, p.mem, p.bytesRead)

end Model

/-! ### What the pointers mean -/

section Meaning

variable (disk : ℕ → Block) (sb : SuperBlock) (inode : Inode)

/-- The pointer that entry `i` of block `b` holds; there is none below no block. -/
def follow (b i : ℕ) : ℕ := if b = 0 then 0 else pointer (disk b) i

/-- The block of the disk that holds block `n` of the file, 0 for a hole. -/
def filePtr (n : ℕ) : ℕ :=
  let p := sb.addrPerBlock
  let root := fun i => inode.iBlock.getD i 0
  if n < 12 then root n
  else if n < 12 + p then follow disk (root 12) (n - 12)
  else if n < 12 + p + p ^ 2 then
    let m := n - (12 + p)
    follow disk (follow disk (root 13) (m / p)) (m % p)
  else
    let m := n - (12 + p + p ^ 2)
    follow disk (follow disk (follow disk (root 14) (m / p ^ 2)) (m / p % p)) (m % p)

/-- How many blocks of a file the pointers of an inode reach. -/
def maxBlocks : ℕ := 12 + sb.addrPerBlock + sb.addrPerBlock ^ 2 + sb.addrPerBlock ^ 3

/-- **Byte `x` of the file.** -/
def fileByte (x : ℕ) : UInt8 :=
  let b := filePtr disk sb inode (x / sb.blockSize)
  if b = 0 then 0 else disk b (x % sb.blockSize)

/-- The bytes of the file that a read of `len` bytes from `offset` on is about. -/
def readLen (offset len : ℕ) : ℕ := (min (len : ℤ) (ext2FileLen sb inode - offset)).toNat

end Meaning

end Ext2
end LittleKernel
