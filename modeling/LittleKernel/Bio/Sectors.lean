/-
# Sector reads and writes of the block layer

`lib/bio/bio.c`: `bio_new_read` and `bio_new_write`, which serve requests in
512-byte sectors on a device that moves native blocks of `n` sectors, at most
`max_blkcnt_per_cmd` sectors a command.

Both walk through the request alike: a native block read in part when the
request does not start on one, a loop of commands on whole native blocks, and a
native block read in part at the end.  `bioNewTransfer` is that walk over the
device calls, which `bio_new_read` and `bio_new_write` fill in.

The loop advances by `block_per_time` sectors but a command moves
`block_per_time / native_block_size` native blocks, so a chunk that is not a
whole number of native blocks loses its last sectors while the returned count
includes them.  `bio_new_transfer_exact_iff` says which requests are served
exactly.  Device calls that succeed move exactly what they are asked to; calls
that fail end the walk, as in the source.
-/

import LittleKernel.Lib.Transfer
import LittleKernel.Lib.Word

namespace LittleKernel
namespace Bio

open Memory Word

/-- `CACHE_LINE` (`arch/arm64/include/arch/defines.h`). -/
def cacheLine : ℕ := 64

/-- The geometry of a `bdev_t`, with native blocks of whole sectors (`temp`, on
the stack, holds one). -/
structure Bdev where
  blockSize : ℕ
  maxBlkcntPerCmd : ℕ
  cacheAlignedReads : Bool
  cacheAlignedWrites : Bool
  sector_dvd : 512 ∣ blockSize
  blockSize_pos : 0 < blockSize
  blockSize_lt : blockSize < 2 ^ 32

/-- `native_block_size`, in sectors. -/
def Bdev.nativeBlockSize (d : Bdev) : ℕ := d.blockSize / 512

/-- `max_blkcnt`. -/
def Bdev.maxBlkcnt (d : Bdev) : ℕ := if d.maxBlkcntPerCmd = 0 then 32 else d.maxBlkcntPerCmd

theorem Bdev.blockSize_eq (d : Bdev) : d.blockSize = 512 * d.nativeBlockSize := by
  have := d.sector_dvd
  unfold Bdev.nativeBlockSize
  omega

theorem Bdev.nativeBlockSize_pos (d : Bdev) : 0 < d.nativeBlockSize := by
  have := d.blockSize_eq
  have := d.blockSize_pos
  omega

theorem Bdev.nativeBlockSize_lt (d : Bdev) : d.nativeBlockSize < 2 ^ 23 := by
  have := d.blockSize_eq
  have := d.blockSize_lt
  omega

theorem Bdev.maxBlkcnt_pos (d : Bdev) : 0 < d.maxBlkcnt := by
  unfold Bdev.maxBlkcnt
  split <;> omega

/-- The device calls of a request, on what the request changes.  `whole` moves
native blocks between the device and `buf`, `part` some bytes of one native
block through `temp`; the flag is set when a call returned an error. -/
structure NativeOps (σ : Type) where
  whole : σ → (buf block count : ℕ) → σ × Bool
  part : σ → (buf block byteOffset byteSize : ℕ) → σ × Bool

/-- The local variables of the walk: `block`, how far `buf` has moved, and
`block_read` or `block_written`. -/
structure Cursor (σ : Type) where
  block : ℕ
  buf : ℕ
  done : ℕ
  mem : σ

variable {σ : Type}

/-- The partial first block.  `goto end` is an error that carries the state it
leaves. -/
def bioNewHead (d : Bdev) (ops : NativeOps σ) (mem : σ) (block count : ℕ) :
    Except (Cursor σ) (Cursor σ) :=
  let n := d.nativeBlockSize
  if block % n ≠ 0 ∨ count < n then
    let base := block / n * n
    let pCnt := min count (sub32 (u32 (base + n)) block)
    let byteSize := u32 (pCnt * 512)
    let r := ops.part mem 0 (base / n) (u32 (sub32 block base * 512)) byteSize
    if r.2 then .error ⟨base, 0, 0, r.1⟩ else .ok ⟨u32 (base + n), byteSize, pCnt, r.1⟩
  else .ok ⟨block, 0, 0, mem⟩

/-- `block_per_time`. -/
def Bdev.blockPerTime (d : Bdev) (left : ℕ) : ℕ :=
  if left ≥ d.maxBlkcnt then d.maxBlkcnt else left

theorem Bdev.blockPerTime_pos (d : Bdev) {left : ℕ} (h : d.nativeBlockSize ≤ left) :
    0 < d.blockPerTime left := by
  have := d.maxBlkcnt_pos
  have := d.nativeBlockSize_pos
  unfold Bdev.blockPerTime
  split <;> omega

theorem Bdev.blockPerTime_le (d : Bdev) (left : ℕ) : d.blockPerTime left ≤ left := by
  unfold Bdev.blockPerTime
  split <;> omega

/-- The loop.  `count - done` does not wrap, a chunk being at most what is left. -/
def bioNewLoop (d : Bdev) (ops : NativeOps σ) (count : ℕ) (c : Cursor σ) :
    Except (Cursor σ) (Cursor σ) :=
  if _h : d.nativeBlockSize ≤ count - c.done then
    let blockPerTime := d.blockPerTime (count - c.done)
    let r := ops.whole c.mem c.buf (c.block / d.nativeBlockSize)
      (blockPerTime / d.nativeBlockSize)
    if r.2 then .error { c with mem := r.1 }
    else bioNewLoop d ops count
      ⟨u32 (c.block + blockPerTime), c.buf + u32 (blockPerTime * 512), c.done + blockPerTime, r.1⟩
  else .ok c
termination_by count - c.done
decreasing_by
  have := d.blockPerTime_pos _h
  have := d.blockPerTime_le (count - c.done)
  omega

/-- The partial last block. -/
def bioNewTail (d : Bdev) (ops : NativeOps σ) (count : ℕ) (c : Cursor σ) :
    Except (Cursor σ) (Cursor σ) :=
  if (count - c.done) % d.nativeBlockSize ≠ 0 then
    let r := ops.part c.mem c.buf (c.block / d.nativeBlockSize) 0 (u32 ((count - c.done) * 512))
    if r.2 then .error { c with mem := r.1 } else .ok { c with mem := r.1, done := count }
  else .ok c

/-- The walk of `bio_new_read` and `bio_new_write`: the returned number of sectors
and what the device calls left. -/
def bioNewTransfer (d : Bdev) (ops : NativeOps σ) (mem : σ) (block count : ℕ) : ℕ × σ :=
  match bioNewHead d ops mem block count >>= bioNewLoop d ops count >>= bioNewTail d ops count with
  | .ok c => (c.done, c.mem)
  | .error c => (c.done, c.mem)

/-- The contents of `temp` after a native block was read into it. -/
def readTemp (d : Bdev) (dev : ℕ → UInt8) (block : ℕ) : ℕ → UInt8 :=
  copy (fun _ => 0) 0 dev (block * d.blockSize) d.blockSize

/-- The device calls of a read, on the buffer. -/
def readOps (d : Bdev) (dev : ℕ → UInt8) : NativeOps (ℕ → UInt8) where
  whole mem buf block count :=
    (copy mem buf dev (block * d.blockSize) (count * d.blockSize), false)
  part mem buf block byteOffset byteSize :=
    (copy mem buf (readTemp d dev block) byteOffset byteSize, false)

/-- The device calls of a write, on the device. -/
def writeOps (d : Bdev) (buffer : ℕ → UInt8) : NativeOps (ℕ → UInt8) where
  whole dev buf block count :=
    (copy dev (block * d.blockSize) buffer buf (count * d.blockSize), false)
  part dev buf block byteOffset byteSize :=
    let temp := copy (readTemp d dev block) byteOffset buffer buf byteSize
    (copy dev (block * d.blockSize) temp 0 d.blockSize, false)

/-- `bio_new_read` into the buffer at address `addr`, all device calls succeeding. -/
def bioNewRead (d : Bdev) (dev buffer : ℕ → UInt8) (addr block count : ℕ) : ℕ × (ℕ → UInt8) :=
  if d.cacheAlignedReads ∧ addr % cacheLine ≠ 0 then (0, buffer)
  else bioNewTransfer d (readOps d dev) buffer block count

/-- `bio_new_write` from the buffer at address `addr`, all device calls succeeding. -/
def bioNewWrite (d : Bdev) (dev buffer : ℕ → UInt8) (addr block count : ℕ) : ℕ × (ℕ → UInt8) :=
  if d.cacheAlignedWrites ∧ addr % cacheLine ≠ 0 then (0, dev)
  else bioNewTransfer d (writeOps d buffer) dev block count

/-! ### The walk as a list of pieces -/

/-- What the loop and the tail move, from the cursor on. -/
def restPieces (d : Bdev) (count block buf done : ℕ) : List Piece :=
  if h : d.nativeBlockSize ≤ count - done then
    let c := d.blockPerTime (count - done)
    ⟨buf, block / d.nativeBlockSize * d.blockSize, c / d.nativeBlockSize * d.blockSize, 512 * done,
        512 * c⟩ ::
      restPieces d count (u32 (block + c)) (buf + u32 (c * 512)) (done + c)
  else if (count - done) % d.nativeBlockSize ≠ 0 then
    [⟨buf, block / d.nativeBlockSize * d.blockSize, 512 * (count - done), 512 * done,
      512 * (count - done)⟩]
  else []
termination_by count - done
decreasing_by
  have := d.blockPerTime_pos h
  have := d.blockPerTime_le (count - done)
  omega

/-- How many sectors the head serves. -/
def headCount (d : Bdev) (block count : ℕ) : ℕ :=
  if block % d.nativeBlockSize ≠ 0 ∨ count < d.nativeBlockSize then
    min count (d.nativeBlockSize - block % d.nativeBlockSize)
  else 0

/-- What a request of at least one sector moves. -/
def pieces (d : Bdev) (block count : ℕ) : List Piece :=
  let k := headCount d block count
  (if k = 0 then [] else [⟨0, 512 * block, 512 * k, 0, 512 * k⟩]) ++
    restPieces d count (u32 (block + k)) (512 * k) k

/-- The device calls succeed, and each moves a piece. -/
structure Moves (d : Bdev) (ops : NativeOps σ) (mv : σ → Piece → σ) : Prop where
  whole : ∀ m buf block count off size, ops.whole m buf block count
    = (mv m ⟨buf, block * d.blockSize, count * d.blockSize, off, size⟩, false)
  part : ∀ m buf block byteOffset byteSize off size, byteOffset + byteSize ≤ d.blockSize →
    ops.part m buf block byteOffset byteSize
      = (mv m ⟨buf, block * d.blockSize + byteOffset, byteSize, off, size⟩, false)
  empty : ∀ m p, p.len = 0 → mv m p = m

theorem readTemp_eq (d : Bdev) (dev : ℕ → UInt8) {block i : ℕ} (h : i < d.blockSize) :
    readTemp d dev block i = dev (block * d.blockSize + i) := by
  rw [readTemp, copy_of_mem (Nat.zero_le _) (by omega), Nat.sub_zero]

theorem moves_readOps (d : Bdev) (dev : ℕ → UInt8) :
    Moves d (readOps d dev) fun m p => copy m p.dst dev p.src p.len where
  whole _ _ _ _ _ _ := rfl
  part m buf block byteOffset byteSize _ _ h := by
    simp only [readOps, Prod.mk.injEq, and_true]
    funext i
    by_cases hi : buf ≤ i ∧ i < buf + byteSize
    · rw [copy_of_mem hi.1 hi.2, copy_of_mem hi.1 hi.2, readTemp_eq d dev (by omega)]
      congr 1
      omega
    · rw [copy_of_not_mem (by omega), copy_of_not_mem (by omega)]
  empty m p h := by simp [h]

/-- Writing back a native block that was read and changed in part writes the part. -/
theorem moves_writeOps (d : Bdev) (buffer : ℕ → UInt8) :
    Moves d (writeOps d buffer) fun m p => copy m p.swap.dst buffer p.swap.src p.swap.len where
  whole _ _ _ _ _ _ := rfl
  part m buf block byteOffset byteSize _ _ h := by
    simp only [writeOps, Piece.swap, Prod.mk.injEq, and_true]
    funext i
    by_cases hi : block * d.blockSize ≤ i ∧ i < block * d.blockSize + d.blockSize
    · rw [copy_of_mem hi.1 hi.2, Nat.zero_add]
      by_cases hp : block * d.blockSize + byteOffset ≤ i ∧
          i < block * d.blockSize + byteOffset + byteSize
      · rw [copy_of_mem (by omega) (by omega), copy_of_mem hp.1 hp.2]
        congr 1
        omega
      · rw [copy_of_not_mem (by omega), copy_of_not_mem (by omega), readTemp_eq d m (by omega)]
        congr 1
        omega
    · rw [copy_of_not_mem (by omega), copy_of_not_mem (by omega)]
  empty m p h := by simp [Piece.swap, h]

theorem restPieces_of_done (d : Bdev) (count block buf : ℕ) :
    restPieces d count block buf count = [] := by
  have := d.nativeBlockSize_pos
  rw [restPieces, Nat.sub_self, dif_neg (by omega), if_neg (by simp)]

section Walk

variable {d : Bdev} {ops : NativeOps σ} {mv : σ → Piece → σ}

theorem bioNewTail_eq (h : Moves d ops mv) {count : ℕ} {c : Cursor σ} (hc : c.done ≤ count)
    (hlt : count - c.done < d.nativeBlockSize) :
    ∃ c', bioNewTail d ops count c = .ok c' ∧ c'.done = count ∧
      c'.mem = (restPieces d count c.block c.buf c.done).foldl mv c.mem := by
  have hn := d.nativeBlockSize_lt
  have hbs := d.blockSize_eq
  rw [restPieces, dif_neg (by omega), bioNewTail, Nat.mod_eq_of_lt hlt]
  split_ifs with h0
  · have hsz : u32 ((count - c.done) * 512) = 512 * (count - c.done) := by
      rw [u32_of_lt (by omega)]
      omega
    rw [hsz, h.part _ _ _ _ _ (512 * c.done) (512 * (count - c.done)) (by omega)]
    exact ⟨_, rfl, rfl, rfl⟩
  · exact ⟨c, rfl, by omega, rfl⟩

theorem bioNewLoop_eq (h : Moves d ops mv) {count : ℕ} (c : Cursor σ) (hc : c.done ≤ count) :
    ∃ c', (bioNewLoop d ops count c >>= bioNewTail d ops count) = .ok c' ∧ c'.done = count ∧
      c'.mem = (restPieces d count c.block c.buf c.done).foldl mv c.mem := by
  induction hk : count - c.done using Nat.strong_induction_on generalizing c with
  | _ k ih =>
    rw [bioNewLoop]
    split_ifs with hle
    · have hpos := d.blockPerTime_pos hle
      have hble := d.blockPerTime_le (count - c.done)
      rw [restPieces, dif_pos hle, List.foldl_cons]
      simp only [h.whole _ _ _ _ (512 * c.done) (512 * d.blockPerTime (count - c.done)),
        Bool.false_eq_true, if_false]
      exact ih (k - d.blockPerTime (count - c.done)) (by omega) _ (by simp only; omega)
        (by simp only; omega)
    · exact bioNewTail_eq h hc (by omega)

/-- What the head leaves to the loop. -/
theorem bioNewHead_eq (h : Moves d ops mv) (mem : σ) {block : ℕ} (count : ℕ) (hb : block < 2 ^ 32) :
    ∃ c, bioNewHead d ops mem block count = .ok c ∧ c.done ≤ count ∧
      (pieces d block count).foldl mv mem
        = (restPieces d count c.block c.buf c.done).foldl mv c.mem := by
  have hn := d.nativeBlockSize_lt
  have hn0 := d.nativeBlockSize_pos
  have hr := Nat.mod_lt block hn0
  have hdm := Nat.div_add_mod' block d.nativeBlockSize
  rcases em (block % d.nativeBlockSize ≠ 0 ∨ count < d.nativeBlockSize) with hcond | hcond
  · -- sectors `r` to `r + p` of the native block of the first sector
    have hsub : sub32 (u32 (block / d.nativeBlockSize * d.nativeBlockSize + d.nativeBlockSize)) block
        = d.nativeBlockSize - block % d.nativeBlockSize := by
      unfold sub32 u32
      omega
    have hoff : sub32 block (block / d.nativeBlockSize * d.nativeBlockSize)
        = block % d.nativeBlockSize := by
      rw [sub32_of_le hb (by omega)]
      omega
    have hsrc : block / d.nativeBlockSize * d.blockSize + 512 * (block % d.nativeBlockSize)
        = 512 * block := by
      rw [d.blockSize_eq, Nat.mul_left_comm, ← Nat.mul_add, hdm]
    simp only [bioNewHead, pieces, headCount, if_pos hcond, hsub, hoff, Nat.mul_div_cancel _ hn0]
    generalize hp : min count (d.nativeBlockSize - block % d.nativeBlockSize) = p
    have hbs := d.blockSize_eq
    rw [u32_of_lt (show block % d.nativeBlockSize * 512 < 2 ^ 32 by omega),
      u32_of_lt (show p * 512 < 2 ^ 32 by omega), Nat.mul_comm _ 512, Nat.mul_comm p 512,
      h.part _ _ _ _ _ 0 (512 * p) (by omega), hsrc]
    refine ⟨_, rfl, hp ▸ min_le_left _ _, ?_⟩
    rcases Nat.lt_or_ge p count with hpc | hpc
    · -- the whole rest of the native block was served
      have hnext : block / d.nativeBlockSize * d.nativeBlockSize + d.nativeBlockSize = block + p := by
        omega
      rw [if_neg (by omega), hnext]
      rfl
    · obtain rfl : p = count := by omega
      rw [restPieces_of_done, restPieces_of_done, List.append_nil]
      rcases Nat.eq_zero_or_pos p with rfl | hp0
      · simp [h.empty]
      · rw [if_neg (by omega)]
        rfl
  · simp only [bioNewHead, pieces, headCount, if_neg hcond]
    exact ⟨_, rfl, Nat.zero_le _, by simp [u32_of_lt hb]⟩

/-- The walk makes the pieces and claims all of the request. -/
theorem bioNewTransfer_eq (h : Moves d ops mv) (mem : σ) {block : ℕ} (count : ℕ)
    (hb : block < 2 ^ 32) :
    bioNewTransfer d ops mem block count = (count, (pieces d block count).foldl mv mem) := by
  obtain ⟨c, hc, hle, hmem⟩ := bioNewHead_eq h mem count hb
  obtain ⟨c', hc', hdone, hmem'⟩ := bioNewLoop_eq h c hle
  have hwalk : (bioNewHead d ops mem block count >>= bioNewLoop d ops count
      >>= bioNewTail d ops count) = .ok c' := by
    rw [hc]
    exact hc'
  rw [bioNewTransfer, hwalk, hmem, ← hmem', ← hdone]

end Walk

/-! ### Which requests are served exactly -/

/-- `left` sectors from the native block boundary `block` on are moved exactly by
the loop and the tail: every chunk is whole native blocks, `buf` moves by the full
length of a chunk that is not the last (the byte length is a 32-bit product), and
no transfer starts at a sector number that has wrapped. -/
def Bdev.RestExact (d : Bdev) (block left : ℕ) : Prop :=
  left = 0 ∨ block < 2 ^ 32 ∧
    (left < d.nativeBlockSize ∨
      (left ≤ d.maxBlkcnt ∧ d.nativeBlockSize ∣ left) ∨
      (d.maxBlkcnt < left ∧ d.nativeBlockSize ∣ d.maxBlkcnt ∧ d.maxBlkcnt < 2 ^ 23 ∧
        block + (left - 1) / d.maxBlkcnt * d.maxBlkcnt < 2 ^ 32 ∧
        (left % d.maxBlkcnt < d.nativeBlockSize ∨ d.nativeBlockSize ∣ left % d.maxBlkcnt)))

/-- The condition on a whole request, the head taken off. -/
def Bdev.Serves (d : Bdev) (block count : ℕ) : Prop :=
  d.RestExact (block + headCount d block count) (count - headCount d block count)

instance (d : Bdev) (block left : ℕ) : Decidable (d.RestExact block left) :=
  inferInstanceAs (Decidable (_ ∨ _))

instance (d : Bdev) (block count : ℕ) : Decidable (d.Serves block count) :=
  inferInstanceAs (Decidable (d.RestExact _ _))

/-- What follows a full chunk, in terms of the sectors `r` left behind it. -/
theorem Bdev.restExact_full (d : Bdev) {block r : ℕ} (hr : 0 < r)
    (hd : d.nativeBlockSize ∣ d.maxBlkcnt) (hM : d.maxBlkcnt < 2 ^ 23) :
    d.RestExact block r ↔ block + (r - 1) / d.maxBlkcnt * d.maxBlkcnt < 2 ^ 32 ∧
      (r % d.maxBlkcnt < d.nativeBlockSize ∨ d.nativeBlockSize ∣ r % d.maxBlkcnt) := by
  have hn := d.nativeBlockSize_pos
  have hle := Nat.le_of_dvd d.maxBlkcnt_pos hd
  have hle' := Nat.zero_le ((r - 1) / d.maxBlkcnt * d.maxBlkcnt)
  unfold Bdev.RestExact
  rcases Nat.lt_trichotomy r d.maxBlkcnt with hlt | heq | hgt
  · rw [Nat.div_eq_of_lt (by omega), Nat.mod_eq_of_lt hlt]
    constructor
    · rintro (h0 | ⟨hb, h⟩)
      · omega
      · exact ⟨by omega, h.imp id fun h => h.elim (·.2) fun h => absurd h.1 (by omega)⟩
    · rintro ⟨hb, h⟩
      exact .inr ⟨by omega, h.imp id fun h => .inl ⟨by omega, h⟩⟩
  · rw [Nat.div_eq_of_lt (by omega), heq, Nat.mod_self]
    constructor
    · rintro (h0 | ⟨hb, -⟩)
      · omega
      · exact ⟨by omega, .inl hn⟩
    · rintro ⟨hb, -⟩
      exact .inr ⟨by omega, .inr (.inl ⟨le_rfl, hd⟩)⟩
  · constructor
    · rintro (h0 | ⟨hb, hl | ⟨hl, -⟩ | ⟨-, -, -, h⟩⟩)
      · omega
      · omega
      · omega
      · exact h
    · exact fun h => .inr ⟨by omega, .inr (.inr ⟨hgt, hd, hM, h⟩)⟩

/-- One chunk of the condition. -/
theorem Bdev.restExact_step (d : Bdev) {block left : ℕ} (h : d.nativeBlockSize ≤ left) :
    d.RestExact block left ↔ block < 2 ^ 32 ∧ d.nativeBlockSize ∣ d.blockPerTime left ∧
      (left = d.blockPerTime left ∨ d.blockPerTime left * 512 < 2 ^ 32 ∧
        d.RestExact (block + d.blockPerTime left) (left - d.blockPerTime left)) := by
  have hn := d.nativeBlockSize_pos
  have hM := d.maxBlkcnt_pos
  unfold Bdev.blockPerTime
  rcases Nat.lt_or_ge d.maxBlkcnt left with hlt | hge
  · rw [if_pos (by omega)]
    have hdiv : (left - 1) / d.maxBlkcnt * d.maxBlkcnt
        = (left - d.maxBlkcnt - 1) / d.maxBlkcnt * d.maxBlkcnt + d.maxBlkcnt := by
      rw [show left - 1 = (left - d.maxBlkcnt - 1) + d.maxBlkcnt by omega, Nat.add_div_right _ hM,
        Nat.succ_mul]
    have hmod : left % d.maxBlkcnt = (left - d.maxBlkcnt) % d.maxBlkcnt :=
      Nat.mod_eq_sub_mod (by omega)
    constructor
    · rintro (h0 | ⟨hb, hl | ⟨hl, -⟩ | ⟨-, hd, hp, hw, hy⟩⟩)
      · omega
      · omega
      · omega
      · refine ⟨hb, hd, .inr ⟨by omega, (d.restExact_full (by omega) hd hp).2 ⟨by omega, ?_⟩⟩⟩
        rwa [← hmod]
    · rintro ⟨hb, hd, heq | ⟨hp, hr⟩⟩
      · omega
      · obtain ⟨hw, hy⟩ := (d.restExact_full (by omega) hd (by omega)).1 hr
        rw [← hmod] at hy
        exact .inr ⟨hb, .inr (.inr ⟨hlt, hd, by omega, by omega, hy⟩)⟩
  · have hb : (if left ≥ d.maxBlkcnt then d.maxBlkcnt else left) = left := by
      split <;> omega
    rw [hb]
    unfold Bdev.RestExact
    constructor
    · rintro (h0 | ⟨hb, hl | ⟨-, hd⟩ | ⟨hl, -⟩⟩)
      · omega
      · omega
      · exact ⟨hb, hd, .inl rfl⟩
      · omega
    · rintro ⟨hb, hd, -⟩
      exact .inr ⟨hb, .inr (.inl ⟨hge, hd⟩)⟩

/-- A native transfer starts at the sector it was meant for exactly when the
sector number has not wrapped. -/
theorem Bdev.native_start (d : Bdev) {block : ℕ} (h : d.nativeBlockSize ∣ block) :
    u32 block / d.nativeBlockSize * d.blockSize = 512 * block ↔ block < 2 ^ 32 := by
  have hbs : u32 block / d.nativeBlockSize * d.blockSize
      = 512 * (u32 block / d.nativeBlockSize * d.nativeBlockSize) := by
    rw [d.blockSize_eq, Nat.mul_left_comm]
  rw [hbs]
  constructor
  · intro he
    have hle := Nat.div_mul_le_self (u32 block) d.nativeBlockSize
    have := u32_lt block
    omega
  · intro hlt
    rw [u32_of_lt hlt, Nat.div_mul_cancel h]

/-- A chunk is moved in full exactly when it is whole native blocks. -/
theorem Bdev.native_length (d : Bdev) (c : ℕ) :
    c / d.nativeBlockSize * d.blockSize = 512 * c ↔ d.nativeBlockSize ∣ c := by
  rw [d.blockSize_eq, Nat.mul_left_comm, Nat.dvd_iff_div_mul_eq]
  omega

/-- As long as something is left, the next piece starts at `buf`. -/
theorem exists_mem_restPieces (d : Bdev) {count done : ℕ} (block buf : ℕ) (h : done < count) :
    ∃ p ∈ restPieces d count block buf done, p.dst = buf ∧ p.off = 512 * done := by
  rw [restPieces]
  split_ifs with hle hm
  · exact ⟨_, List.mem_cons_self, rfl, rfl⟩
  · exact ⟨_, List.mem_cons_self, rfl, rfl⟩
  · rw [Nat.mod_eq_of_lt (by omega)] at hm
    omega

/-- The pieces of the split are exact together when the rest of the request is, by the recursion of
the loop. -/
theorem restPieces_exact_iff (d : Bdev) {count base done : ℕ} (hc : done ≤ count)
    (hb : done < count → d.nativeBlockSize ∣ base + done) :
    (∀ p ∈ restPieces d count (u32 (base + done)) (512 * done) done, p.Exact 0 (512 * base)) ↔
      d.RestExact (base + done) (count - done) := by
  have hn := d.nativeBlockSize_pos
  induction hk : count - done using Nat.strong_induction_on generalizing done with
  | _ k ih =>
    rcases Nat.lt_or_ge k d.nativeBlockSize with hlt | hge
    · rw [restPieces, dif_neg (by omega), hk, Nat.mod_eq_of_lt hlt]
      rcases Nat.eq_zero_or_pos k with rfl | hk0
      · simp [Bdev.RestExact]
      · have hst := d.native_start (hb (by omega))
        rw [if_pos (by omega), List.forall_mem_singleton]
        simp only [Piece.Exact, Bdev.RestExact]
        constructor
        · rintro ⟨-, hsrc, -⟩
          exact .inr ⟨hst.1 (by omega), .inl hlt⟩
        · rintro (h0 | ⟨hlt', -⟩)
          · omega
          · exact ⟨by omega, by rw [hst.2 hlt']; omega, trivial⟩
    · have hdvd := hb (by omega)
      have hst := d.native_start hdvd
      have hlen := d.native_length (d.blockPerTime k)
      have hpos := d.blockPerTime_pos hge
      have hle := d.blockPerTime_le k
      rw [restPieces, dif_pos (by omega), List.forall_mem_cons, d.restExact_step hge, hk]
      generalize d.blockPerTime k = c at *
      have hfirst : Piece.Exact 0 (512 * base) ⟨512 * done,
          u32 (base + done) / d.nativeBlockSize * d.blockSize, c / d.nativeBlockSize * d.blockSize,
          512 * done, 512 * c⟩ ↔ base + done < 2 ^ 32 ∧ d.nativeBlockSize ∣ c := by
        rw [← hst, ← hlen, Piece.Exact]
        simp only
        omega
      rw [hfirst, and_assoc]
      refine and_congr_right fun hwrap => and_congr_right fun hcd => ?_
      rw [u32_of_lt hwrap]
      rcases Nat.lt_or_ge c k with hck | hck
      · rw [or_iff_right (by omega)]
        rcases Nat.lt_or_ge (c * 512) (2 ^ 32) with h32 | h32
        · rw [u32_of_lt h32, and_iff_right h32]
          have := ih (k - c) (by omega) (show done + c ≤ count by omega)
            (fun _ => by rw [← Nat.add_assoc]; exact Nat.dvd_add hdvd hcd) (by omega)
          rwa [Nat.mul_add, ← Nat.add_assoc, Nat.mul_comm 512 c] at this
        · -- `buf` falls short and the next piece starts there
          refine iff_of_false (fun hall => ?_) fun h => absurd h.1 (by omega)
          obtain ⟨p, hp, hdst, hoff⟩ := exists_mem_restPieces d (u32 (base + done + c))
            (512 * done + u32 (c * 512)) (show done + c < count by omega)
          have hex := (hall p hp).1
          have hu : u32 (c * 512) < 2 ^ 32 := u32_lt _
          omega
      · obtain rfl : c = k := by omega
        rw [show done + c = count by omega, restPieces_of_done]
        simp

/-- What the head leaves starts on a native block, if it leaves anything. -/
theorem nativeBlockSize_dvd_headCount (d : Bdev) {block count : ℕ}
    (h : headCount d block count < count) :
    d.nativeBlockSize ∣ block + headCount d block count := by
  have hr := Nat.mod_lt block d.nativeBlockSize_pos
  have hdm := Nat.div_add_mod' block d.nativeBlockSize
  unfold headCount at h ⊢
  split_ifs at h ⊢ with hcond
  · rw [min_eq_right (by omega)]
    refine ⟨block / d.nativeBlockSize + 1, ?_⟩
    rw [Nat.mul_add, Nat.mul_comm, Nat.mul_one]
    omega
  · simp only [not_or, not_not] at hcond
    exact Nat.dvd_of_mod_eq_zero hcond.1

theorem headCount_le (d : Bdev) (block count : ℕ) : headCount d block count ≤ count := by
  unfold headCount
  split
  · exact min_le_left _ _
  · exact Nat.zero_le _

theorem pieces_exact_iff (d : Bdev) (block count : ℕ) :
    (∀ p ∈ pieces d block count, p.Exact 0 (512 * block)) ↔ d.Serves block count := by
  unfold pieces Bdev.Serves
  rw [← restPieces_exact_iff d (headCount_le d block count) fun h =>
    nativeBlockSize_dvd_headCount d h, List.forall_mem_append]
  refine and_iff_right fun p hp => ?_
  split_ifs at hp
  · simp at hp
  · obtain rfl := List.mem_singleton.1 hp
    exact ⟨rfl, rfl, rfl⟩

theorem restPieces_tiles (d : Bdev) {count done : ℕ} (block buf : ℕ) (hc : done ≤ count) :
    Tiles (512 * done) (512 * count) (restPieces d count block buf done) := by
  induction hk : count - done using Nat.strong_induction_on generalizing done block buf with
  | _ k ih =>
    rw [restPieces]
    split_ifs with hle hm
    · have hpos := d.blockPerTime_pos hle
      have hble := d.blockPerTime_le (count - done)
      refine ⟨rfl, ?_⟩
      rw [← Nat.mul_add]
      exact ih _ (by omega) _ _ (by omega) rfl
    · exact ⟨rfl, by simp only [Tiles]; omega⟩
    · rw [Nat.mod_eq_of_lt (by omega)] at hm
      simp only [Tiles]
      omega

/-- Rounding down and wrapping only ever fall behind. -/
theorem restPieces_within (d : Bdev) {count base block buf done : ℕ} (hblock : block ≤ base + done)
    (hbuf : buf ≤ 512 * done) :
    ∀ p ∈ restPieces d count block buf done, p.Within 0 (512 * base) := by
  have hn := d.nativeBlockSize_pos
  have hround : ∀ x, x / d.nativeBlockSize * d.blockSize ≤ 512 * x := fun x => by
    rw [d.blockSize_eq, Nat.mul_left_comm]
    exact Nat.mul_le_mul_left 512 (Nat.div_mul_le_self x _)
  induction hk : count - done using Nat.strong_induction_on generalizing block buf done with
  | _ k ih =>
    have hb := hround block
    rw [restPieces]
    split_ifs with hle hm
    · have hpos := d.blockPerTime_pos hle
      have hble := d.blockPerTime_le (count - done)
      have hc := hround (d.blockPerTime (count - done))
      rw [List.forall_mem_cons]
      refine ⟨⟨by simp only; omega, by simp only; omega, hc, by simp only; omega⟩,
        ih _ (by omega) ?_ ?_ rfl⟩
      · have : u32 (block + d.blockPerTime (count - done)) ≤ block + d.blockPerTime (count - done) :=
          Nat.mod_le _ _
        omega
      · have : u32 (d.blockPerTime (count - done) * 512) ≤ d.blockPerTime (count - done) * 512 :=
          Nat.mod_le _ _
        omega
    · rw [Nat.mod_eq_of_lt (by omega)] at hm
      rw [List.forall_mem_singleton]
      exact ⟨by simp only; omega, by simp only; omega, Nat.le_refl _, by simp only; omega⟩
    · simp

theorem pieces_tiles (d : Bdev) (block count : ℕ) : Tiles 0 (512 * count) (pieces d block count) := by
  have h := restPieces_tiles d (u32 (block + headCount d block count))
    (512 * headCount d block count) (headCount_le d block count)
  rcases em (headCount d block count = 0) with h0 | h0
  · simpa [pieces, h0] using h
  · rw [pieces, if_neg h0]
    exact ⟨rfl, by simpa using h⟩

theorem pieces_within (d : Bdev) (block count : ℕ) :
    ∀ p ∈ pieces d block count, p.Within 0 (512 * block) := by
  unfold pieces
  rw [List.forall_mem_append]
  refine ⟨fun p hp => ?_, restPieces_within d (Nat.mod_le _ _) (Nat.le_refl _)⟩
  split_ifs at hp with h0
  · simp at hp
  · obtain rfl := List.mem_singleton.1 hp
    exact ⟨Nat.le_refl _, Nat.le_refl _, Nat.le_refl _, by simp only; omega⟩

instance nontrivialByte : Nontrivial UInt8 := ⟨0, 1, by decide⟩

/-- Whatever the device and the buffer hold, the read puts the bytes of sectors
`[block, block + count)` into the buffer, touches nothing behind them and returns
`count`. -/
def ReadsExactly (d : Bdev) (addr block count : ℕ) : Prop :=
  ∀ dev buffer, bioNewRead d dev buffer addr block count
    = (count, copy buffer 0 dev (512 * block) (512 * count))

/-- Whatever the device and the buffer hold, the write replaces sectors
`[block, block + count)` of the device by the buffer, leaves every other sector and
returns `count`. -/
def WritesExactly (d : Bdev) (addr block count : ℕ) : Prop :=
  ∀ dev buffer, bioNewWrite d dev buffer addr block count
    = (count, copy dev (512 * block) buffer 0 (512 * count))

variable {d : Bdev} {addr block : ℕ}

theorem readsExactly_iff (count : ℕ) (hb : block < 2 ^ 32)
    (ha : d.cacheAlignedReads → addr % cacheLine = 0) :
    ReadsExactly d addr block count ↔ d.Serves block count := by
  have hr : ∀ dev buffer, bioNewRead d dev buffer addr block count
      = (count, runPieces dev buffer (pieces d block count)) := fun dev buffer => by
    rw [bioNewRead, if_neg (fun h => h.2 (ha h.1)), bioNewTransfer_eq (moves_readOps d dev) _ _ hb]
    rfl
  have hex : (∀ dev buffer : ℕ → UInt8, runPieces dev buffer (pieces d block count)
      = copy buffer 0 dev (512 * block) (512 * count)) ↔ _ :=
    runPieces_eq_copy_iff (pieces_tiles d block count) (pieces_within d block count)
  rw [← pieces_exact_iff, ← hex]
  simp only [ReadsExactly, hr, Prod.mk.injEq, true_and]

theorem writesExactly_iff (count : ℕ) (hb : block < 2 ^ 32)
    (ha : d.cacheAlignedWrites → addr % cacheLine = 0) :
    WritesExactly d addr block count ↔ d.Serves block count := by
  have hw : ∀ dev buffer, bioNewWrite d dev buffer addr block count
      = (count, runPieces buffer dev ((pieces d block count).map Piece.swap)) := fun dev buffer => by
    rw [bioNewWrite, if_neg (fun h => h.2 (ha h.1)),
      bioNewTransfer_eq (moves_writeOps d buffer) _ _ hb, runPieces, List.foldl_map]
  have hex : (∀ buffer dev : ℕ → UInt8, runPieces buffer dev ((pieces d block count).map Piece.swap)
      = copy dev (512 * block) buffer 0 (512 * count)) ↔
      ∀ p ∈ pieces d block count, p.Exact 0 (512 * block) := by
    refine (runPieces_eq_copy_iff (pieces_tiles d block count).swap ?_).trans ?_
    · rw [List.forall_mem_map]
      exact fun p hp => Piece.swap_within.2 (pieces_within d block count p hp)
    · simp only [List.forall_mem_map, Piece.swap_exact]
  rw [← pieces_exact_iff, ← hex, forall_comm]
  simp only [WritesExactly, hw, Prod.mk.injEq, true_and]

/-- **Which sector requests are served exactly.**  For every geometry, every
request and a buffer as aligned as the device asks, `bio_new_read` and
`bio_new_write` each do what they are for, on all contents, exactly when
`Bdev.Serves` holds: what is left after the first native block goes out in chunks
of whole native blocks, up to a remainder of less than one. -/
theorem bio_new_transfer_exact_iff (d : Bdev) (addr block count : ℕ) (hb : block < 2 ^ 32)
    (hr : d.cacheAlignedReads → addr % cacheLine = 0)
    (hw : d.cacheAlignedWrites → addr % cacheLine = 0) :
    (ReadsExactly d addr block count ↔ d.Serves block count) ∧
      (WritesExactly d addr block count ↔ d.Serves block count) :=
  ⟨readsExactly_iff count hb hr, writesExactly_iff count hb hw⟩

/-- A flash device with 4096-byte blocks and commands of at most 32 sectors. -/
def bdev4096 : Bdev := ⟨4096, 0, false, false, by decide, by decide, by decide⟩

/-- Sectors 3 to 42: five from the first native block, a command of 32, three from the last. -/
theorem bio_new_transfer_exact_forty :
    bdev4096.Serves 3 40 ∧ ReadsExactly bdev4096 0 3 40 ∧ WritesExactly bdev4096 0 3 40 := by
  have h : bdev4096.Serves 3 40 := by decide
  have hiff := bio_new_transfer_exact_iff bdev4096 0 3 40 (by decide) (by decide) (by decide)
  exact ⟨h, hiff.1.2 h, hiff.2.2 h⟩

/-- **Dropped sectors.**  A request for 20 sectors from sector 0 is one chunk of 20,
of which the device moves two native blocks; sectors 16 to 19 are neither read nor
written, and the call returns 20. -/
theorem bio_new_transfer_drops :
    ¬ ReadsExactly bdev4096 0 0 20 ∧ ¬ WritesExactly bdev4096 0 0 20 := by
  have h : ¬ bdev4096.Serves 0 20 := by decide
  exact ⟨fun hr => h ((readsExactly_iff 20 (by decide) (by decide)).1 hr),
    fun hw => h ((writesExactly_iff 20 (by decide) (by decide)).1 hw)⟩

end Bio
end LittleKernel
