/-
# Byte reads and writes of the block layer

`bio_trim_block_range`, `bio_read_block`, `bio_write_block`, `bio_default_read` and
`bio_default_write` of `lib/bio/bio.c`: a range of bytes on a device that moves whole
blocks, in a partial first block, the blocks in the middle and a partial last block.

Reads and writes walk alike.  `defaultTransfer` is the walk, over what one block through
`temp`, one whole block and a run of blocks come to (`ByteOps`).  The hooks of the driver
are `Hooks`: each call returns what it returns, after any history; a call that is not done
in full leaves anything where it was to put something.

`bio_initialize_bdev` computes `block_shift` from a `uint`, so a block has less than `2 ^ 32`
bytes.  `divpow2` takes a `uint` as well, and the middle of a transfer that is done in one
call loses what `len` has above 32 bits; the rest of it goes through the last block.
-/

import LittleKernel.Bio.Sectors

namespace LittleKernel
namespace Bio

open Memory Word

/-- The fields of a `bdev_t` that the byte calls read, as `bio_initialize_bdev` sets them. -/
structure ByteDev where
  blockShift : ℕ
  blockCount : ℕ
  cacheAlignedReads : Bool
  cacheAlignedWrites : Bool
  blockShift_lt : blockShift < 32
  blockCount_lt : blockCount < 2 ^ 32

/-- `block_size`. -/
def ByteDev.blockSize (d : ByteDev) : ℕ := 2 ^ d.blockShift

/-- `total_size`. -/
def ByteDev.totalSize (d : ByteDev) : ℕ := d.blockCount * d.blockSize

/-- A call of the `read_block` or the `write_block` hook, and what it returned. -/
structure Call where
  write : Bool
  block : ℕ
  count : ℕ
  ret : ℤ
  deriving DecidableEq

/-- The call was done in full. -/
def Call.Full (d : ByteDev) (c : Call) : Prop := c.ret = c.count * d.blockSize

/-- The hooks of a driver: what a call returns after the calls made before, and what it
leaves if that is not the full number of bytes; `stack` is the memory `temp` is in. -/
structure Hooks where
  ret : List Call → Bool → ℕ → ℕ → ℤ
  junk : List Call → ℕ → UInt8
  stack : ℕ → UInt8

/-- The memory of the caller, the device, and the calls made. -/
structure St where
  mem : ℕ → UInt8
  disk : ℕ → UInt8
  calls : List Call

/-- `ERR_IO`. -/
def errIo : ℤ := -20

section Model

variable (d : ByteDev) (h : Hooks)

/-- `bio_trim_block_range`. -/
def trimBlockRange (block count : ℕ) : ℕ :=
  if d.blockCount < block then 0
  else if count = 0 then 0
  else if d.blockCount < u32 (block + count) then d.blockCount - block
  else count

/-- `bio_read_block` to position `pos` of `dst`: what it returns, and `dst` then. -/
def bioReadBlock (s : St) (dst : ℕ → UInt8) (pos block count : ℕ) : ℤ × (ℕ → UInt8) × St :=
  let n := trimBlockRange d block count
  if n = 0 then (0, dst, s)
  else
    let r := h.ret s.calls false block n
    let s' := { s with calls := s.calls ++ [⟨false, block, n, r⟩] }
    if r = n * d.blockSize then
      (r, copy dst pos s.disk (block * d.blockSize) (n * d.blockSize), s')
    else (r, copy dst pos (h.junk s.calls) 0 (n * d.blockSize), s')

/-- `bio_write_block` from position `pos` of `src`. -/
def bioWriteBlock (s : St) (src : ℕ → UInt8) (pos block count : ℕ) : ℤ × St :=
  let n := trimBlockRange d block count
  if n = 0 then (0, s)
  else
    let r := h.ret s.calls true block n
    let disk := if r = n * d.blockSize then
        copy s.disk (block * d.blockSize) src pos (n * d.blockSize)
      else copy s.disk (block * d.blockSize) (h.junk s.calls) 0 (n * d.blockSize)
    (r, { s with disk := disk, calls := s.calls ++ [⟨true, block, n, r⟩] })

/-- What follows every block call: `goto err` with the error, or with `ERR_IO` when the call
came short. -/
def checked {α : Type} (r : ℤ) (want : ℕ) (s : St) (x : α) : Except (ℤ × St) α :=
  if r < 0 then .error (r, s)
  else if r ≠ want then .error (errIo, s)
  else .ok x

/-- One block into `temp`. -/
def blockToTemp (s : St) (block : ℕ) : Except (ℤ × St) ((ℕ → UInt8) × St) :=
  let x := bioReadBlock d h s h.stack 0 block 1
  checked x.1 d.blockSize x.2.2 x.2

/-- `temp` back to the device. -/
def tempToBlock (s : St) (temp : ℕ → UInt8) (block : ℕ) : Except (ℤ × St) St :=
  let x := bioWriteBlock d h s temp 0 block 1
  checked x.1 d.blockSize x.2 x.2

/-- The block calls of a transfer between the memory at `pos` and the device: some bytes of
one block through `temp`, one block through `temp`, and whole blocks at once. -/
structure ByteOps where
  part : St → (pos block byteOffset byteSize : ℕ) → Except (ℤ × St) St
  single : St → (pos block : ℕ) → Except (ℤ × St) St
  whole : St → (pos block count : ℕ) → Except (ℤ × St) St

/-- The block calls of a read. -/
def byteReads : ByteOps where
  part s pos block byteOffset byteSize :=
    (blockToTemp d h s block).map fun x =>
      { x.2 with mem := copy x.2.mem pos x.1 byteOffset byteSize }
  single s pos block :=
    (blockToTemp d h s block).map fun x => { x.2 with mem := copy x.2.mem pos x.1 0 d.blockSize }
  whole s pos block count :=
    let x := bioReadBlock d h s s.mem pos block count
    let s' := { x.2.2 with mem := x.2.1 }
    checked x.1 (d.blockSize * count) s' s'

/-- The block calls of a write. -/
def byteWrites : ByteOps where
  part s pos block byteOffset byteSize :=
    (blockToTemp d h s block).bind fun x =>
      tempToBlock d h x.2 (copy x.1 byteOffset x.2.mem pos byteSize) block
  single s pos block := tempToBlock d h s (copy h.stack 0 s.mem pos d.blockSize) block
  whole s pos block count :=
    let x := bioWriteBlock d h s s.mem pos block count
    checked x.1 (d.blockSize * count) x.2 x.2

/-- The local variables of a transfer: `block`, `buf`, `len` and `bytes_read`. -/
structure ByteCursor where
  block : ℕ
  buf : ℕ
  len : ℕ
  done : ℕ
  st : St

variable (ops : ByteOps)

/-- The partial first block. -/
def defaultHead (s : St) (buf offset len : ℕ) : Except (ℤ × St) ByteCursor :=
  let block := u32 (offset / d.blockSize)
  if offset % d.blockSize ≠ 0 then
    let tocopy := min (d.blockSize - offset % d.blockSize) len
    (ops.part s buf block (offset % d.blockSize) tocopy).map fun s =>
      ⟨u32 (block + 1), buf + tocopy, len - tocopy, tocopy, s⟩
  else .ok ⟨block, buf, len, 0, s⟩

/-- The loop over the blocks in the middle. -/
def defaultLoop (c : ByteCursor) : Except (ℤ × St) ByteCursor :=
  if _h : d.blockSize ≤ c.len then
    (ops.single c.st c.buf c.block).bind fun s =>
      defaultLoop ⟨u32 (c.block + 1), c.buf + d.blockSize, c.len - d.blockSize,
        c.done + d.blockSize, s⟩
  else .ok c
termination_by c.len
decreasing_by
  have : 0 < d.blockSize := Nat.two_pow_pos _
  omega

/-- The blocks in the middle, one by one where the device wants aligned buffers and the
buffer is not. -/
def defaultMiddle (cacheAligned : Bool) (c : ByteCursor) : Except (ℤ × St) ByteCursor :=
  if cacheAligned ∧ c.buf % cacheLine ≠ 0 then defaultLoop d ops c
  else
    -- divpow2 takes a uint
    let numBlocks := u32 c.len / 2 ^ d.blockShift
    (ops.whole c.st c.buf c.block numBlocks).map fun s =>
      ⟨u32 (c.block + numBlocks), c.buf + d.blockSize * numBlocks,
        c.len - d.blockSize * numBlocks, c.done + d.blockSize * numBlocks, s⟩

/-- The partial last block. -/
def defaultTail (c : ByteCursor) : Except (ℤ × St) ByteCursor :=
  if 0 < c.len then
    (ops.part c.st c.buf c.block 0 c.len).map fun s =>
      { c with done := c.done + c.len, st := s }
  else .ok c

/-- The walk: what the call returns, and the state it leaves. -/
def defaultTransfer (cacheAligned : Bool) (s : St) (buf offset len : ℕ) : ℤ × St :=
  match defaultHead d ops s buf offset len >>= defaultMiddle d ops cacheAligned >>=
      defaultTail ops with
  | .error e => e
  | .ok c => (c.done, c.st)

/-- `bio_default_read`. -/
def bioDefaultRead (s : St) (buf offset len : ℕ) : ℤ × St :=
  defaultTransfer d (byteReads d h) d.cacheAlignedReads s buf offset len

/-- `bio_default_write`. -/
def bioDefaultWrite (s : St) (buf offset len : ℕ) : ℤ × St :=
  defaultTransfer d (byteWrites d h) d.cacheAlignedWrites s buf offset len

end Model

/-! ### What a transfer is for -/

section Spec

variable (d : ByteDev)

/-- All the blocks reach into the range, or into the block where it starts. -/
def BlocksWithin (offset len block count : ℕ) : Prop :=
  offset / d.blockSize ≤ block ∧ (block + count) * d.blockSize < offset + len + d.blockSize

/-- The call names blocks of the range only. -/
def Call.Within (offset len : ℕ) (c : Call) : Prop := BlocksWithin d offset len c.block c.count

/-- The byte is in no block of the range. -/
def Outside (offset len i : ℕ) : Prop :=
  i < offset / d.blockSize * d.blockSize ∨
    (offset + len + d.blockSize - 1) / d.blockSize * d.blockSize ≤ i

/-- A driver that does every call in full. -/
def Hooks.Sound (h : Hooks) : Prop :=
  ∀ calls write block count, h.ret calls write block count = (count * d.blockSize : ℕ)

/-- What is asked of a transfer `run`, which is to leave `done`: with a driver that does every
call in full it returns `len` and leaves `done`; after a call that failed or came short it
returns an error; and it never touches other blocks than those of the range. -/
structure TransferExact (run : Hooks → St → ℤ × St) (offset len : ℕ)
    (done : (mem disk : ℕ → UInt8) → (ℕ → UInt8) × (ℕ → UInt8)) : Prop where
  full : ∀ h mem disk, h.Sound d → (run h ⟨mem, disk, []⟩).1 = len ∧
    ((run h ⟨mem, disk, []⟩).2.mem, (run h ⟨mem, disk, []⟩).2.disk) = done mem disk
  fails : ∀ h mem disk, (∃ c ∈ (run h ⟨mem, disk, []⟩).2.calls, ¬c.Full d) →
    (run h ⟨mem, disk, []⟩).1 < 0
  within : ∀ h mem disk, ∀ c ∈ (run h ⟨mem, disk, []⟩).2.calls, c.Within d offset len
  outside : ∀ h mem disk i, Outside d offset len i → (run h ⟨mem, disk, []⟩).2.disk i = disk i

/-- `bio_default_read` of the range into the buffer at `buf`. -/
def ReadExact (buf offset len : ℕ) : Prop :=
  TransferExact d (fun h s => bioDefaultRead d h s buf offset len) offset len fun mem disk =>
    (copy mem buf disk offset len, disk)

/-- `bio_default_write` of the range from the buffer at `buf`. -/
def WriteExact (buf offset len : ℕ) : Prop :=
  TransferExact d (fun h s => bioDefaultWrite d h s buf offset len) offset len fun mem disk =>
    (mem, copy disk offset mem buf len)

/-- How many bytes the partial first block serves. -/
def headLen (offset len : ℕ) : ℕ :=
  if offset % d.blockSize ≠ 0 then min (d.blockSize - offset % d.blockSize) len else 0

/-- What is left for the middle fits 32 bits, or goes block by block. -/
def MiddleFits (cacheAligned : Bool) (buf offset len : ℕ) : Prop :=
  (cacheAligned = true ∧ (buf + headLen d offset len) % cacheLine ≠ 0) ∨
    len - headLen d offset len < 2 ^ 32

end Spec

/-! ### The walk -/

/-- The result satisfies `P`, or the error `Q`. -/
def Meets {ε α : Type} (P : α → Prop) (Q : ε → Prop) : Except ε α → Prop
  | .ok x => P x
  | .error e => Q e

section Meets

variable {ε α β : Type} {P : α → Prop} {R : β → Prop} {Q : ε → Prop}

theorem Meets.bind {x : Except ε α} {f : α → Except ε β} (hx : Meets P Q x)
    (hf : ∀ a, P a → Meets R Q (f a)) : Meets R Q (x >>= f) := by
  cases x with
  | error e => exact hx
  | ok a => exact hf a hx

theorem Meets.mono {x : Except ε α} {P' : α → Prop} (hx : Meets P Q x) (h : ∀ a, P a → P' a) :
    Meets P' Q x := by
  cases x with
  | error e => exact hx
  | ok a => exact h a hx

theorem Meets.map {x : Except ε α} {f : α → β} (hx : Meets P Q x) (hf : ∀ a, P a → R (f a)) :
    Meets R Q (x.map f) := by
  cases x with
  | error e => exact hx
  | ok a => exact hf a hx

end Meets

section Walk

variable {d : ByteDev} {ops : ByteOps} {buf offset len : ℕ} {P : ℕ → St → Prop} {Q : ℤ × St → Prop}

theorem ByteDev.blockSize_pos (d : ByteDev) : 0 < d.blockSize := Nat.two_pow_pos _

/-- **What the block calls of a transfer keep**: `P j` holds with the first `j` bytes moved,
and `Q` where the transfer ends with an error. -/
structure Moving (d : ByteDev) (ops : ByteOps) (buf offset len : ℕ) (P : ℕ → St → Prop)
    (Q : ℤ × St → Prop) : Prop where
  part : ∀ j s block byteOffset size, P j s → block * d.blockSize + byteOffset = offset + j →
    byteOffset < d.blockSize → byteOffset + size ≤ d.blockSize → j + size ≤ len →
    block < d.blockCount →
    (block + 1) * d.blockSize < offset + len + d.blockSize →
    Meets (P (j + size)) Q (ops.part s (buf + j) block byteOffset size)
  single : ∀ j s block, P j s → block * d.blockSize = offset + j → j + d.blockSize ≤ len →
    Meets (P (j + d.blockSize)) Q (ops.single s (buf + j) block)
  whole : ∀ j s block count, P j s → (0 < count → block * d.blockSize = offset + j) →
    j + d.blockSize * count ≤ len → count < 2 ^ 32 →
    Meets (P (j + d.blockSize * count)) Q (ops.whole s (buf + j) block count)

/-- The cursor after `j` bytes. -/
structure CursorAt (d : ByteDev) (buf offset len : ℕ) (P : ℕ → St → Prop) (j : ℕ)
    (c : ByteCursor) : Prop where
  le : j ≤ len
  buf_eq : c.buf = buf + j
  len_eq : c.len = len - j
  done_eq : c.done = j
  block_eq : j < len → c.block * d.blockSize = offset + j
  holds : P j c.st

variable (hm : Moving d ops buf offset len P Q) (hin : offset + len ≤ d.totalSize)

include hin in
theorem block_lt_of_mul {block j : ℕ} (hj : j < len) (hb : block * d.blockSize = offset + j) :
    block < d.blockCount := by
  have htotal : d.totalSize = d.blockCount * d.blockSize := rfl
  refine Nat.lt_of_mul_lt_mul_right (a := d.blockSize) ?_
  omega

include hm hin in
theorem defaultHead_meets {s : St} (h : P 0 s) :
    Meets (CursorAt d buf offset len P (headLen d offset len)) Q
      (defaultHead d ops s buf offset len) := by
  have hbs := d.blockSize_pos
  have hcount := d.blockCount_lt
  have hdiv := Nat.div_add_mod offset d.blockSize
  have hmod := Nat.mod_lt offset hbs
  have htotal : d.totalSize = d.blockCount * d.blockSize := rfl
  have hle : offset / d.blockSize ≤ d.blockCount := by
    refine Nat.div_le_of_le_mul ?_
    rw [Nat.mul_comm]
    omega
  rw [Nat.mul_comm] at hdiv
  rw [defaultHead, headLen]
  by_cases haligned : offset % d.blockSize ≠ 0
  · have hlt : offset / d.blockSize < d.blockCount := by
      refine Nat.lt_of_mul_lt_mul_right (a := d.blockSize) ?_
      omega
    simp only [if_pos haligned, u32_of_lt (show offset / d.blockSize < 2 ^ 32 by omega)]
    have hpart := hm.part 0 s (offset / d.blockSize) (offset % d.blockSize)
      (min (d.blockSize - offset % d.blockSize) len) h (by omega) (by omega) (by omega) (by omega)
      hlt
      (by rw [Nat.add_mul, Nat.one_mul]; omega)
    rw [Nat.add_zero, Nat.zero_add] at hpart
    refine hpart.map fun s' hs' => ⟨by omega, rfl, rfl, rfl, fun hj => ?_, hs'⟩
    dsimp only
    rw [u32_of_lt (by omega), Nat.add_mul, Nat.one_mul]
    omega
  · rw [if_neg haligned, if_neg haligned]
    refine ⟨Nat.zero_le _, rfl, rfl, rfl, fun _ => ?_, h⟩
    dsimp only
    rw [u32_of_lt (by omega)]
    omega

include hm hin in
theorem defaultLoop_meets (c : ByteCursor) {j : ℕ} (hc : CursorAt d buf offset len P j c) :
    Meets (fun c' => ∃ j', len - j' < d.blockSize ∧ CursorAt d buf offset len P j' c') Q
      (defaultLoop d ops c) := by
  induction hk : c.len using Nat.strong_induction_on generalizing c j with
  | _ k ih =>
    have hbs := d.blockSize_pos
    have hcount := d.blockCount_lt
    have hle := hc.le
    have hlen := hc.len_eq
    rw [defaultLoop]
    by_cases hmore : d.blockSize ≤ c.len
    · rw [dif_pos hmore]
      have hblock := hc.block_eq (by omega)
      have hlt := block_lt_of_mul hin (show j < len by omega) hblock
      have hsingle := hm.single j c.st c.block hc.holds hblock (by omega)
      rw [hc.buf_eq]
      refine hsingle.bind fun s' hs' => ih (c.len - d.blockSize) (by omega) _
        (j := j + d.blockSize) ⟨by omega, ?_, ?_, ?_, fun _ => ?_, hs'⟩ rfl
      · dsimp only
        omega
      · dsimp only
        omega
      · rw [hc.done_eq]
      · dsimp only
        rw [u32_of_lt (by omega), Nat.add_mul, Nat.one_mul]
        omega
    · rw [dif_neg hmore]
      exact ⟨j, by omega, hc⟩

include hm hin in
/-- The middle in one call, of as many blocks as `divpow2` finds in 32 bits of the length. -/
theorem defaultMiddle_once_meets {cacheAligned : Bool} {c : ByteCursor}
    (honce : ¬(cacheAligned = true ∧ c.buf % cacheLine ≠ 0)) {j : ℕ}
    (hc : CursorAt d buf offset len P j c) :
    Meets (CursorAt d buf offset len P (j + d.blockSize * (u32 (len - j) / d.blockSize))) Q
      (defaultMiddle d ops cacheAligned c) := by
  have hbs := d.blockSize_pos
  have hcount := d.blockCount_lt
  have hle := hc.le
  rw [defaultMiddle, if_neg honce]
  dsimp only
  rw [hc.len_eq, show 2 ^ d.blockShift = d.blockSize from rfl]
  have hu : u32 (len - j) < 2 ^ 32 := u32_lt _
  have hule : u32 (len - j) ≤ len - j := Nat.mod_le _ _
  generalize hk : u32 (len - j) / d.blockSize = k
  have hkle : d.blockSize * k ≤ u32 (len - j) := hk ▸ Nat.mul_div_le _ _
  have hklt : k < 2 ^ 32 := hk ▸ (Nat.div_le_self _ _).trans_lt hu
  have hkpos : 0 < k → j < len := fun hpos => by
    have := Nat.mul_pos hbs hpos
    omega
  have hwhole := hm.whole j c.st c.block k hc.holds (fun hpos => hc.block_eq (hkpos hpos))
    (by omega) hklt
  rw [hc.buf_eq]
  refine hwhole.map fun s' hs' => ⟨by omega, by dsimp only; omega, by dsimp only; omega,
    by dsimp only; rw [hc.done_eq], fun hlt => ?_, hs'⟩
  have hblock := hc.block_eq (by omega)
  have hend : (c.block + k) * d.blockSize = offset + (j + d.blockSize * k) := by
    rw [Nat.add_mul, hblock, Nat.mul_comm k]
    omega
  have := block_lt_of_mul hin hlt hend
  dsimp only
  rw [u32_of_lt (by omega), hend]

include hm hin in
theorem defaultMiddle_meets {cacheAligned : Bool} {c : ByteCursor}
    (hfits : MiddleFits d cacheAligned buf offset len)
    (hc : CursorAt d buf offset len P (headLen d offset len) c) :
    Meets (fun c' => ∃ j', len - j' < d.blockSize ∧ CursorAt d buf offset len P j' c') Q
      (defaultMiddle d ops cacheAligned c) := by
  by_cases hloop : cacheAligned = true ∧ c.buf % cacheLine ≠ 0
  · rw [defaultMiddle, if_pos hloop]
    exact defaultLoop_meets hm hin c hc
  · have hsmall : len - headLen d offset len < 2 ^ 32 :=
      hfits.resolve_left fun h => hloop (by rw [hc.buf_eq]; exact h)
    refine (defaultMiddle_once_meets hm hin hloop hc).mono fun c' hc' => ⟨_, ?_, hc'⟩
    rw [u32_of_lt hsmall]
    have hdiv := Nat.div_add_mod (len - headLen d offset len) d.blockSize
    have hmod := Nat.mod_lt (len - headLen d offset len) d.blockSize_pos
    omega

include hm hin in
/-- A transfer whose middle does not fit comes to its last block with more than a block left. -/
theorem defaultTransfer_short {cacheAligned : Bool} {s : St} {R : ByteCursor → Prop}
    (hno : ¬MiddleFits d cacheAligned buf offset len) (h : P 0 s)
    (htail : ∀ j c, j + d.blockSize < len → CursorAt d buf offset len P j c →
      Meets R Q (defaultTail ops c)) :
    Meets R Q (defaultHead d ops s buf offset len >>= defaultMiddle d ops cacheAligned >>=
      defaultTail ops) := by
  rw [MiddleFits, not_or, not_lt] at hno
  have hmiddle := (defaultHead_meets hm hin h).bind fun c hc =>
    @defaultMiddle_once_meets _ _ _ _ _ _ _ hm hin cacheAligned _
      (by rw [hc.buf_eq]; exact hno.1) _ hc
  refine hmiddle.bind fun c hc => htail _ c ?_ hc
  have hbs : d.blockSize < 2 ^ 32 := Nat.pow_lt_pow_right (by decide) d.blockShift_lt
  have hkle := Nat.mul_div_le (u32 (len - headLen d offset len)) d.blockSize
  -- the middle leaves at least what the length has above 32 bits
  have hu : u32 (len - headLen d offset len) + 2 ^ 32 ≤ len - headLen d offset len := by
    have hmod := Nat.div_add_mod (len - headLen d offset len) (2 ^ 32)
    have hpos := Nat.div_pos hno.2 (Nat.two_pow_pos 32)
    unfold u32
    omega
  omega

include hm hin in
/-- **The walk** of a transfer whose middle fits moves all its bytes, or ends with an error. -/
theorem defaultTransfer_meets {cacheAligned : Bool} {s : St}
    (hfits : MiddleFits d cacheAligned buf offset len) (h : P 0 s) :
    (∃ s', defaultTransfer d ops cacheAligned s buf offset len = ((len : ℤ), s') ∧ P len s') ∨
      Q (defaultTransfer d ops cacheAligned s buf offset len) := by
  have hbs := d.blockSize_pos
  have hmiddle := (defaultHead_meets hm hin h).bind fun c hc => defaultMiddle_meets hm hin hfits hc
  have htail : Meets (fun c => c.done = len ∧ P len c.st) Q
      (defaultHead d ops s buf offset len >>= defaultMiddle d ops cacheAligned >>=
        defaultTail ops) := by
    refine hmiddle.bind fun c hc => ?_
    obtain ⟨j, hj, hc⟩ := hc
    have hle := hc.le
    rw [defaultTail]
    by_cases hmore : 0 < c.len
    · rw [if_pos hmore]
      have hlen := hc.len_eq
      have hblock := hc.block_eq (by omega)
      have hpart := hm.part j c.st c.block 0 c.len hc.holds (by omega) (by omega) (by omega)
        (by omega) (block_lt_of_mul hin (by omega) hblock) (by rw [Nat.add_mul, Nat.one_mul]; omega)
      rw [hc.buf_eq]
      rw [show j + c.len = len by omega] at hpart
      refine hpart.map fun s' hs' => ⟨?_, hs'⟩
      dsimp only
      rw [hc.done_eq]
      omega
    · rw [if_neg hmore]
      have hlen := hc.len_eq
      obtain rfl : j = len := by omega
      exact ⟨hc.done_eq, hc.holds⟩
  rw [defaultTransfer]
  cases hrun : defaultHead d ops s buf offset len >>= defaultMiddle d ops cacheAligned >>=
      defaultTail ops with
  | error e =>
    rw [hrun] at htail
    exact .inr htail
  | ok c =>
    rw [hrun] at htail
    refine .inl ⟨c.st, ?_, htail.2⟩
    dsimp only
    rw [htail.1]

end Walk

/-! ### The block calls -/

section Calls

variable {d : ByteDev} {h : Hooks} {offset len : ℕ} {disk : ℕ → UInt8} {s : St}

/-- So far every call was done in full, and on blocks of the range. -/
def Clean (d : ByteDev) (offset len : ℕ) (s : St) : Prop :=
  ∀ c ∈ s.calls, c.Full d ∧ c.Within d offset len

/-- How a transfer ends that returns an error, on a device that held `disk`. -/
structure Failed (d : ByteDev) (h : Hooks) (offset len : ℕ) (disk : ℕ → UInt8) (e : ℤ × St) :
    Prop where
  neg : e.1 < 0
  short : ∃ c ∈ e.2.calls, ¬c.Full d ∧ ∃ calls, c.ret = h.ret calls c.write c.block c.count
  within : ∀ c ∈ e.2.calls, c.Within d offset len
  outside : ∀ i, Outside d offset len i → e.2.disk i = disk i

variable {write : Bool} {block count : ℕ} {r : ℤ} {mem disk' : ℕ → UInt8}

theorem Clean.push (hs : Clean d offset len s) (hfull : r = (count * d.blockSize : ℕ))
    (hw : BlocksWithin d offset len block count) :
    Clean d offset len ⟨mem, disk', s.calls ++ [⟨write, block, count, r⟩]⟩ := by
  intro c' hc'
  obtain hc' | hc' := List.mem_append.1 hc'
  · exact hs c' hc'
  · obtain rfl := List.mem_singleton.1 hc'
    exact ⟨by simpa [Call.Full] using hfull, hw⟩

theorem Clean.failed (hs : Clean d offset len s) (hfull : r ≠ (count * d.blockSize : ℕ))
    (hw : BlocksWithin d offset len block count)
    (hret : ∃ calls, h.ret calls write block count = r) {e : ℤ} (he : e < 0)
    (hout : ∀ i, Outside d offset len i → disk' i = disk i) :
    Failed d h offset len disk (e, ⟨mem, disk', s.calls ++ [⟨write, block, count, r⟩]⟩) where
  neg := he
  short := ⟨_, List.mem_append_right _ (List.mem_singleton_self _),
    fun h => hfull (by simpa [Call.Full] using h), hret.imp fun _ h => h.symm⟩
  within c' hc' := by
    obtain hc' | hc' := List.mem_append.1 hc'
    · exact (hs c' hc').2
    · obtain rfl := List.mem_singleton.1 hc'
      exact hw
  outside := hout

theorem trimBlockRange_of_le (hle : block + count ≤ d.blockCount) :
    trimBlockRange d block count = count := by
  have := d.blockCount_lt
  rw [trimBlockRange, if_neg (by omega)]
  by_cases hc : count = 0
  · rw [if_pos hc, hc]
  · rw [if_neg hc, u32_of_lt (by omega), if_neg (by omega)]

theorem trimBlockRange_zero (block : ℕ) : trimBlockRange d block 0 = 0 := by
  rw [trimBlockRange, if_pos rfl, ite_self]

/-- A copy to blocks of the range leaves the others. -/
theorem copy_outside (hw : BlocksWithin d offset len block count)
    {m src : ℕ → UInt8} {pos i : ℕ} (hi : Outside d offset len i) :
    copy m (block * d.blockSize) src pos (count * d.blockSize) i = m i := by
  obtain ⟨hlo, hhi⟩ := hw
  have h₁ := Nat.mul_le_mul_right d.blockSize hlo
  have h₂ := (Nat.le_div_iff_mul_le d.blockSize_pos).2
    (show (block + count) * d.blockSize ≤ offset + len + d.blockSize - 1 by omega)
  have h₃ := Nat.mul_le_mul_right d.blockSize h₂
  rw [Nat.add_mul] at h₃
  refine copy_of_not_mem ?_
  obtain hi | hi := hi
  · exact .inl (by omega)
  · exact .inr (by omega)

/-- A call that comes back in full goes on. -/
theorem checked_full {α : Type} {P : α → Prop} {Q : ℤ × St → Prop} {want : ℕ} {x : α}
    (hfull : r = want) (hx : P x) : Meets P Q (checked r want s x) := by
  rw [checked, if_neg (by omega), if_neg (not_not_intro hfull)]
  exact hx

/-- One that comes back short is an error: that of the driver, or `ERR_IO`. -/
theorem Clean.checked_short {α : Type} {P : α → Prop} {x : α} {want : ℕ} (hs : Clean d offset len s)
    (hshort : r ≠ want) (hwant : count * d.blockSize = want)
    (hw : BlocksWithin d offset len block count) (hret : h.ret s.calls write block count = r)
    (hout : ∀ i, Outside d offset len i → disk' i = disk i) :
    Meets P (Failed d h offset len disk)
      (checked r want ⟨mem, disk', s.calls ++ [⟨write, block, count, r⟩]⟩ x) := by
  rw [← hwant] at hshort
  rw [checked]
  split_ifs with hneg
  · exact hs.failed hshort hw ⟨_, hret⟩ hneg hout
  · exact hs.failed hshort hw ⟨_, hret⟩ (by decide) hout
  · exact absurd (not_not.1 ‹_›) (hwant ▸ hshort)

/-- One block is read into `temp`. -/
theorem blockToTemp_meets (hs : Clean d offset len s)
    (hdisk : ∀ i, Outside d offset len i → s.disk i = disk i) (hlt : block < d.blockCount)
    (hw : BlocksWithin d offset len block 1) :
    Meets (fun x => x.2.mem = s.mem ∧ x.2.disk = s.disk ∧ Clean d offset len x.2 ∧
        x.1 = copy h.stack 0 s.disk (block * d.blockSize) d.blockSize)
      (Failed d h offset len disk) (blockToTemp d h s block) := by
  have htrim : trimBlockRange d block 1 = 1 := trimBlockRange_of_le (by omega)
  simp only [blockToTemp, bioReadBlock, htrim, Nat.one_ne_zero, if_false, Nat.cast_one, one_mul]
  generalize hr : h.ret s.calls false block 1 = r
  by_cases hfull : r = (d.blockSize : ℤ)
  · rw [if_pos hfull]
    exact checked_full hfull ⟨rfl, rfl, hs.push (by simpa using hfull) hw, rfl⟩
  · rw [if_neg hfull]
    exact hs.checked_short hfull (Nat.one_mul _) hw hr hdisk

/-- `temp` is written to one block. -/
theorem tempToBlock_meets (hs : Clean d offset len s)
    (hdisk : ∀ i, Outside d offset len i → s.disk i = disk i) (hlt : block < d.blockCount)
    (hw : BlocksWithin d offset len block 1) (temp : ℕ → UInt8) :
    Meets (fun s' => s'.mem = s.mem ∧ Clean d offset len s' ∧
        s'.disk = copy s.disk (block * d.blockSize) temp 0 d.blockSize)
      (Failed d h offset len disk) (tempToBlock d h s temp block) := by
  have htrim : trimBlockRange d block 1 = 1 := trimBlockRange_of_le (by omega)
  have hout : ∀ src i, Outside d offset len i →
      copy s.disk (block * d.blockSize) src 0 d.blockSize i = disk i := fun src i hi => by
    have : copy s.disk (block * d.blockSize) src 0 (1 * d.blockSize) i = s.disk i :=
      copy_outside hw hi
    rw [Nat.one_mul] at this
    rw [this, hdisk i hi]
  simp only [tempToBlock, bioWriteBlock, htrim, Nat.one_ne_zero, if_false, Nat.cast_one, one_mul]
  generalize hr : h.ret s.calls true block 1 = r
  by_cases hfull : r = (d.blockSize : ℤ)
  · rw [if_pos hfull]
    exact checked_full hfull ⟨rfl, hs.push (by simpa using hfull) hw, rfl⟩
  · rw [if_neg hfull]
    exact hs.checked_short hfull (Nat.one_mul _) hw hr (hout _)

/-- Where the blocks of a step lie that starts `j` bytes into the range. -/
theorem blocksWithin_of_mul {j : ℕ} {byteOffset : ℕ} (hb : block * d.blockSize + byteOffset = offset + j)
    (hlt : byteOffset < d.blockSize)
    (hend : (block + count) * d.blockSize < offset + len + d.blockSize) :
    BlocksWithin d offset len block count := by
  refine ⟨Nat.le_of_lt_succ ((Nat.div_lt_iff_lt_mul d.blockSize_pos).2 ?_), hend⟩
  rw [Nat.succ_mul]
  omega

/-- The memory of a read with the first `j` bytes in it. -/
structure ReadTo (d : ByteDev) (offset len buf : ℕ) (mem disk : ℕ → UInt8) (j : ℕ) (s : St) :
    Prop where
  mem_eq : s.mem = copy mem buf disk offset j
  disk_eq : s.disk = disk
  clean : Clean d offset len s

/-- The device of a write with the first `j` bytes on it. -/
structure WrittenTo (d : ByteDev) (offset len buf : ℕ) (mem disk : ℕ → UInt8) (j : ℕ) (s : St) :
    Prop where
  mem_eq : s.mem = mem
  disk_eq : s.disk = copy disk offset mem buf j
  clean : Clean d offset len s

/-- What is in the range is not outside. -/
theorem copy_range_outside {j pos i : ℕ} {m src : ℕ → UInt8} (hj : j ≤ len)
    (hi : Outside d offset len i) : copy m offset src pos j i = m i := by
  have h₁ := Nat.div_mul_le_self offset d.blockSize
  have h₂ := Nat.div_add_mod (offset + len + d.blockSize - 1) d.blockSize
  have h₃ := Nat.mod_lt (offset + len + d.blockSize - 1) d.blockSize_pos
  rw [Nat.mul_comm] at h₂
  refine copy_of_not_mem ?_
  obtain hi | hi := hi
  · exact .inl (by omega)
  · exact .inr (by omega)

/-- A run of whole blocks of the range is one of the device. -/
theorem run_within (hin : offset + len ≤ d.totalSize) {j : ℕ}
    (hb : block * d.blockSize = offset + j) (hle : j + d.blockSize * count ≤ len) :
    trimBlockRange d block count = count ∧ BlocksWithin d offset len block count := by
  have hbs := d.blockSize_pos
  have htotal : d.totalSize = d.blockCount * d.blockSize := rfl
  have hend : (block + count) * d.blockSize = offset + j + d.blockSize * count := by
    rw [Nat.add_mul, hb, Nat.mul_comm count]
  exact ⟨trimBlockRange_of_le (Nat.le_of_mul_le_mul_right (by omega) hbs),
    blocksWithin_of_mul (show block * d.blockSize + 0 = offset + j by omega) hbs (by omega)⟩

/-- Each part of a read brings the memory from `j` bytes of the range to `j + size`, or has failed. -/
theorem moving_byteReads (h : Hooks) (buf : ℕ) (mem : ℕ → UInt8)
    (hin : offset + len ≤ d.totalSize) :
    Moving d (byteReads d h) buf offset len (ReadTo d offset len buf mem disk)
      (Failed d h offset len disk) := by
  have hpart : ∀ j s block byteOffset size, ReadTo d offset len buf mem disk j s →
      block * d.blockSize + byteOffset = offset + j → byteOffset < d.blockSize →
      byteOffset + size ≤ d.blockSize → block < d.blockCount →
      (block + 1) * d.blockSize < offset + len + d.blockSize →
      Meets (ReadTo d offset len buf mem disk (j + size)) (Failed d h offset len disk)
        ((byteReads d h).part s (buf + j) block byteOffset size) := by
    intro j s block byteOffset size hs hb hbo hsize hlt hend
    refine (blockToTemp_meets hs.clean (fun i _ => by rw [hs.disk_eq]) hlt
      (blocksWithin_of_mul hb hbo hend)).map fun x hx => ⟨?_, hx.2.1.trans hs.disk_eq, hx.2.2.1⟩
    dsimp only
    rw [hx.1, hs.mem_eq, hx.2.2.2, hs.disk_eq, ← copy_append]
    refine copy_congr fun i hi => ?_
    rw [copy_of_mem (by omega) (by omega)]
    congr 1
    omega
  refine ⟨fun j s block byteOffset size hs hb hbo hsize _ => hpart j s block byteOffset size hs hb
    hbo hsize, fun j s block hs hb hle => ?_, fun j s block count hs hb hle hcount => ?_⟩
  · have hbs := d.blockSize_pos
    have hlt := block_lt_of_mul hin (show j < len by omega) hb
    exact hpart j s block 0 d.blockSize hs (by omega) hbs (by omega) hlt
      (by rw [Nat.add_mul, Nat.one_mul]; omega)
  · by_cases hzero : count = 0
    · -- nothing is asked of the driver
      simp only [byteReads, bioReadBlock, hzero, trimBlockRange_zero, if_true, Nat.mul_zero,
        Nat.add_zero]
      exact checked_full rfl ⟨hs.mem_eq, hs.disk_eq, hs.clean⟩
    · obtain ⟨htrim, hw⟩ := run_within hin (hb (by omega)) hle
      have hmul : count * d.blockSize = d.blockSize * count := Nat.mul_comm _ _
      simp only [byteReads, bioReadBlock, htrim, hzero, if_false, hs.disk_eq]
      generalize hr : h.ret s.calls false block count = r
      by_cases hfull : r = (count : ℤ) * d.blockSize
      · rw [if_pos hfull]
        refine checked_full (by rw [← hmul]; simpa using hfull)
          ⟨?_, rfl, hs.clean.push (by simpa using hfull) hw⟩
        dsimp only
        rw [hs.mem_eq, hb (by omega), hmul]
        exact copy_append mem disk buf offset j (d.blockSize * count)
      · rw [if_neg hfull]
        exact hs.clean.checked_short (by rw [← hmul]; simpa using hfull) hmul hw hr fun _ _ => rfl

/-- A block that was changed in part in `temp` and goes back is changed in that part. -/
theorem copy_through_temp {m src stack : ℕ → UInt8} {base bo size n pos : ℕ} (hle : bo + size ≤ n) :
    copy m base (copy (copy stack 0 m base n) bo src pos size) 0 n =
      copy m (base + bo) src pos size := by
  funext i
  by_cases hi : base ≤ i ∧ i < base + n
  · rw [copy_of_mem hi.1 hi.2, Nat.zero_add]
    by_cases hp : base + bo ≤ i ∧ i < base + bo + size
    · rw [copy_of_mem (by omega) (by omega), copy_of_mem hp.1 hp.2]
      congr 1
      omega
    · rw [copy_of_not_mem (by omega), copy_of_mem (by omega) (by omega), copy_of_not_mem (by omega)]
      congr 1
      omega
  · rw [copy_of_not_mem (by omega), copy_of_not_mem (by omega)]

/-- Each part of a write brings the device from `j` bytes of the range to `j + size`, or has failed. -/
theorem moving_byteWrites (h : Hooks) (buf : ℕ) (mem : ℕ → UInt8)
    (hin : offset + len ≤ d.totalSize) :
    Moving d (byteWrites d h) buf offset len (WrittenTo d offset len buf mem disk)
      (Failed d h offset len disk) := by
  have hbs := d.blockSize_pos
  have hdisk : ∀ {j s}, WrittenTo d offset len buf mem disk j s → j ≤ len →
      ∀ i, Outside d offset len i → s.disk i = disk i := fun hs hj i hi => by
    rw [hs.disk_eq, copy_range_outside hj hi]
  refine ⟨fun j s block byteOffset size hs hb hbo hsize hle hlt hend => ?_,
    fun j s block hs hb hle => ?_, fun j s block count hs hb hle hcount => ?_⟩
  · have hw := blocksWithin_of_mul hb hbo hend
    refine (blockToTemp_meets hs.clean (hdisk hs (by omega)) hlt hw).bind fun x hx => ?_
    obtain ⟨hmem, hxdisk, hclean, htemp⟩ := hx
    have hout : ∀ i, Outside d offset len i → x.2.disk i = disk i := fun i hi => by
      rw [hxdisk, hdisk hs (by omega) i hi]
    have htempWrite := tempToBlock_meets (h := h) hclean hout hlt hw
      (copy x.1 byteOffset x.2.mem (buf + j) size)
    cases hrun : tempToBlock d h x.2 (copy x.1 byteOffset x.2.mem (buf + j) size) block with
    | error e =>
      rw [hrun] at htempWrite
      exact htempWrite
    | ok s' =>
      rw [hrun] at htempWrite
      obtain ⟨hmem', hclean', hdisk'⟩ := htempWrite
      refine ⟨(hmem'.trans hmem).trans hs.mem_eq, ?_, hclean'⟩
      rw [hdisk', htemp, hxdisk, copy_through_temp hsize, hmem, hs.mem_eq, hs.disk_eq, hb,
        copy_append]
  · have hlt := block_lt_of_mul hin (show j < len by omega) hb
    have hw : BlocksWithin d offset len block 1 :=
      blocksWithin_of_mul (show block * d.blockSize + 0 = offset + j by omega) hbs
        (by rw [Nat.add_mul, Nat.one_mul]; omega)
    have htempWrite := tempToBlock_meets (h := h) hs.clean (hdisk hs (by omega)) hlt hw
      (copy h.stack 0 s.mem (buf + j) d.blockSize)
    change Meets _ _ (tempToBlock d h s (copy h.stack 0 s.mem (buf + j) d.blockSize) block)
    cases hrun : tempToBlock d h s (copy h.stack 0 s.mem (buf + j) d.blockSize) block with
    | error e =>
      rw [hrun] at htempWrite
      exact htempWrite
    | ok s' =>
      rw [hrun] at htempWrite
      obtain ⟨hmem', hclean', hdisk'⟩ := htempWrite
      refine ⟨hmem'.trans hs.mem_eq, ?_, hclean'⟩
      rw [hdisk', ← copy_append, ← hs.disk_eq, hb, hs.mem_eq]
      refine copy_congr fun i hi => ?_
      rw [copy_of_mem (by omega) (by omega)]
      congr 1
      omega
  · by_cases hzero : count = 0
    · simp only [byteWrites, bioWriteBlock, hzero, trimBlockRange_zero, if_true, Nat.mul_zero,
        Nat.add_zero]
      exact checked_full rfl hs
    · obtain ⟨htrim, hw⟩ := run_within hin (hb (by omega)) hle
      have hmul : count * d.blockSize = d.blockSize * count := Nat.mul_comm _ _
      have hout : ∀ src i, Outside d offset len i →
          copy s.disk (block * d.blockSize) src 0 (count * d.blockSize) i = disk i :=
        fun src i hi => by rw [copy_outside hw hi, hdisk hs (by omega) i hi]
      simp only [byteWrites, bioWriteBlock, htrim, hzero, if_false]
      generalize hr : h.ret s.calls true block count = r
      by_cases hfull : r = (count : ℤ) * d.blockSize
      · rw [if_pos hfull]
        refine checked_full (by rw [← hmul]; simpa using hfull)
          ⟨hs.mem_eq, ?_, hs.clean.push (by simpa using hfull) hw⟩
        dsimp only
        rw [hs.disk_eq, hs.mem_eq, hb (by omega), hmul]
        exact copy_append disk mem offset buf j (d.blockSize * count)
      · rw [if_neg hfull]
        exact hs.clean.checked_short (by rw [← hmul]; simpa using hfull) hmul hw hr (hout _)

end Calls

/-! ### Which transfers are exact -/

section Exact

variable {d : ByteDev} {buf offset len : ℕ}

/-- A transfer whose middle fits does what it is for. -/
theorem transferExact_of_moving {ops : Hooks → ByteOps} {cacheAligned : Bool}
    {P : (mem disk : ℕ → UInt8) → ℕ → St → Prop}
    {done : (mem disk : ℕ → UInt8) → (ℕ → UInt8) × (ℕ → UInt8)}
    (hin : offset + len ≤ d.totalSize) (hfits : MiddleFits d cacheAligned buf offset len)
    (hm : ∀ h mem disk, Moving d (ops h) buf offset len (P mem disk) (Failed d h offset len disk))
    (hstart : ∀ mem disk, P mem disk 0 ⟨mem, disk, []⟩)
    (hend : ∀ mem disk s, P mem disk len s → (s.mem, s.disk) = done mem disk ∧
      Clean d offset len s ∧ ∀ i, Outside d offset len i → s.disk i = disk i) :
    TransferExact d (fun h s => defaultTransfer d (ops h) cacheAligned s buf offset len) offset len
      done := by
  have hrun := fun h mem disk => defaultTransfer_meets (hm h mem disk) hin hfits (hstart mem disk)
  refine ⟨fun h mem disk hsound => ?_, fun h mem disk hshort => ?_, fun h mem disk => ?_,
    fun h mem disk i hi => ?_⟩
  · obtain ⟨s', hs', hP⟩ | hQ := hrun h mem disk
    · rw [hs']
      exact ⟨rfl, (hend mem disk s' hP).1⟩
    · obtain ⟨c, -, hfull, calls, hret⟩ := hQ.short
      exact absurd (by rw [Call.Full, hret, hsound]; push_cast; rfl) hfull
  · obtain ⟨s', hs', hP⟩ | hQ := hrun h mem disk
    · rw [hs'] at hshort
      obtain ⟨c, hc, hfull⟩ := hshort
      exact absurd ((hend mem disk s' hP).2.1 c hc).1 hfull
    · exact hQ.neg
  · obtain ⟨s', hs', hP⟩ | hQ := hrun h mem disk
    · rw [hs']
      exact fun c hc => ((hend mem disk s' hP).2.1 c hc).2
    · exact hQ.within
  · obtain ⟨s', hs', hP⟩ | hQ := hrun h mem disk
    · rw [hs']
      exact (hend mem disk s' hP).2.2 i hi
    · exact hQ.outside i hi

theorem readExact_of_fits (hin : offset + len ≤ d.totalSize)
    (hfits : MiddleFits d d.cacheAlignedReads buf offset len) : ReadExact d buf offset len := by
  refine transferExact_of_moving hin hfits
    (fun h mem disk => moving_byteReads h buf mem hin) (fun mem disk => ⟨?_, rfl, ?_⟩)
    fun mem disk s hs => ⟨?_, hs.clean, fun i _ => by rw [hs.disk_eq]⟩
  · simp
  · simp [Clean]
  · rw [hs.mem_eq, hs.disk_eq]

theorem writeExact_of_fits (hin : offset + len ≤ d.totalSize)
    (hfits : MiddleFits d d.cacheAlignedWrites buf offset len) : WriteExact d buf offset len := by
  refine transferExact_of_moving hin hfits
    (fun h mem disk => moving_byteWrites h buf mem hin) (fun mem disk => ⟨rfl, ?_, ?_⟩)
    fun mem disk s hs => ⟨?_, hs.clean, fun i hi => by rw [hs.disk_eq, copy_range_outside le_rfl hi]⟩
  · simp
  · simp [Clean]
  · rw [hs.mem_eq, hs.disk_eq]

/-- A driver that does every call in full, over a stack of zeroes. -/
def soundHooks (d : ByteDev) : Hooks where
  ret _ _ _ count := (count * d.blockSize : ℕ)
  junk _ _ := 0
  stack _ := 0

theorem sound_soundHooks (d : ByteDev) : (soundHooks d).Sound d := fun _ _ _ _ => rfl

/-- With a driver that does every call in full no transfer ends with an error. -/
theorem not_failed_of_sound {h : Hooks} (hsound : h.Sound d) {disk : ℕ → UInt8} {e : ℤ × St} :
    ¬Failed d h offset len disk e := by
  intro hfail
  obtain ⟨c, -, hfull, calls, hret⟩ := hfail.short
  exact hfull (by rw [Call.Full, hret, hsound]; push_cast; rfl)

/-- A transfer of which the last block shows something else than what was asked for. -/
theorem not_transferExact_of_short {ops : Hooks → ByteOps} {cacheAligned : Bool}
    {P : ℕ → St → Prop} {mem disk : ℕ → UInt8}
    {done : (mem disk : ℕ → UInt8) → (ℕ → UInt8) × (ℕ → UInt8)} {R : St → Prop}
    (hin : offset + len ≤ d.totalSize) (hno : ¬MiddleFits d cacheAligned buf offset len)
    (hm : Moving d (ops (soundHooks d)) buf offset len P (Failed d (soundHooks d) offset len disk))
    (hstart : P 0 ⟨mem, disk, []⟩)
    (htail : ∀ j c, j + d.blockSize < len → CursorAt d buf offset len P j c →
      Meets (fun c => R c.st) (Failed d (soundHooks d) offset len disk)
        (defaultTail (ops (soundHooks d)) c))
    (hwrong : ∀ s, R s → (s.mem, s.disk) ≠ done mem disk) :
    ¬TransferExact d (fun h s => defaultTransfer d (ops h) cacheAligned s buf offset len) offset len
      done := by
  intro hexact
  have hfull := (hexact.full (soundHooks d) mem disk (sound_soundHooks d)).2
  have hshort := defaultTransfer_short hm hin hno hstart htail
  rw [defaultTransfer] at hfull
  cases hrun : defaultHead d (ops (soundHooks d)) ⟨mem, disk, []⟩ buf offset len >>=
      defaultMiddle d (ops (soundHooks d)) cacheAligned >>= defaultTail (ops (soundHooks d)) with
  | error e =>
    rw [hrun] at hshort
    exact not_failed_of_sound (sound_soundHooks d) hshort
  | ok c =>
    rw [hrun] at hshort hfull
    exact hwrong c.st hshort hfull

/-- The last byte of a read comes from behind `temp` then. -/
theorem not_readExact_of_not_fits (hin : offset + len ≤ d.totalSize)
    (hno : ¬MiddleFits d d.cacheAlignedReads buf offset len) : ¬ReadExact d buf offset len := by
  have hbs := d.blockSize_pos
  refine @not_transferExact_of_short _ _ _ _ _ _ _ (fun _ => 0) (fun _ => 1) _
    (fun s => s.mem (buf + len - 1) = 0 ∧ 0 < len) hin hno
    (moving_byteReads (soundHooks d) buf (fun _ => 0) hin) ⟨by simp, rfl, by simp [Clean]⟩
    (fun j c hj hc => ?_) fun s hs heq => ?_
  · have hlen := hc.len_eq
    have hblock := hc.block_eq (by omega)
    rw [defaultTail, if_pos (by omega)]
    have htemp := @blockToTemp_meets _ (soundHooks d) _ _ (fun _ => 1) _ _ hc.holds.clean
      (fun i _ => by rw [hc.holds.disk_eq]) (block_lt_of_mul hin (by omega) hblock)
      (blocksWithin_of_mul (show c.block * d.blockSize + 0 = offset + j by omega) hbs
        (by rw [Nat.add_mul, Nat.one_mul]; omega))
    refine (htemp.map fun x hx => ?_).map fun s' hs' => hs'
    refine ⟨?_, by omega⟩
    dsimp only
    rw [hx.2.2.2, hc.buf_eq, hlen, copy_of_mem (by omega) (by omega), copy_of_not_mem (by omega)]
    rfl
  · have hbyte := congrFun (congrArg Prod.fst heq) (buf + len - 1)
    dsimp only at hbyte
    rw [hs.1, copy_of_mem (by omega) (by omega)] at hbyte
    exact absurd hbyte (by decide)

/-- The last byte of a write is not written then. -/
theorem not_writeExact_of_not_fits (hin : offset + len ≤ d.totalSize)
    (hno : ¬MiddleFits d d.cacheAlignedWrites buf offset len) : ¬WriteExact d buf offset len := by
  have hbs := d.blockSize_pos
  refine @not_transferExact_of_short _ _ _ _ _ _ _ (fun _ => 1) (fun _ => 0) _
    (fun s => s.disk (offset + len - 1) = 0 ∧ 0 < len) hin hno
    (moving_byteWrites (soundHooks d) buf (fun _ => 1) hin) ⟨rfl, by simp, by simp [Clean]⟩
    (fun j c hj hc => ?_) fun s hs heq => ?_
  · have hlen := hc.len_eq
    have hblock := hc.block_eq (by omega)
    have hlt := block_lt_of_mul hin (by omega) hblock
    have hw := blocksWithin_of_mul (show c.block * d.blockSize + 0 = offset + j by omega) hbs
      (show (c.block + 1) * d.blockSize < offset + len + d.blockSize by
        rw [Nat.add_mul, Nat.one_mul]; omega)
    have hdisk : ∀ i, Outside d offset len i → c.st.disk i = 0 := fun i hi => by
      rw [hc.holds.disk_eq, copy_range_outside hc.le hi]
    rw [defaultTail, if_pos (by omega)]
    refine ((@blockToTemp_meets _ (soundHooks d) _ _ (fun _ => 0) _ _ hc.holds.clean hdisk hlt
      hw).bind fun x hx => ?_).map fun s' hs' => hs'
    refine (tempToBlock_meets (h := soundHooks d) hx.2.2.1 (fun i hi => by rw [hx.2.1, hdisk i hi])
      hlt hw _).mono fun s' hs' => ⟨?_, by omega⟩
    rw [hs'.2.2, copy_of_not_mem (by omega), hx.2.1, hc.holds.disk_eq, copy_of_not_mem (by omega)]
  · have hbyte := congrFun (congrArg Prod.snd heq) (offset + len - 1)
    dsimp only at hbyte
    rw [hs.1, copy_of_mem (by omega) (by omega)] at hbyte
    exact absurd hbyte (by decide)

/-- **Byte transfers.**  A transfer of a range of the device does exactly what it is asked for,
or fails with an error, if and only if what is left after the partial first block has less
than `2 ^ 32` bytes or goes block by block. -/
theorem bio_default_transfer_iff (hin : offset + len ≤ d.totalSize) :
    (ReadExact d buf offset len ↔ MiddleFits d d.cacheAlignedReads buf offset len) ∧
      (WriteExact d buf offset len ↔ MiddleFits d d.cacheAlignedWrites buf offset len) := by
  constructor
  · exact ⟨fun h => not_not.1 fun hno => not_readExact_of_not_fits hin hno h, readExact_of_fits hin⟩
  · exact ⟨fun h => not_not.1 fun hno => not_writeExact_of_not_fits hin hno h,
      writeExact_of_fits hin⟩

/-- A disk of 2 ^ 24 blocks of 512 bytes. -/
def exampleDisk : ByteDev := ⟨9, 2 ^ 24, false, false, by decide, by decide⟩

/-- A range that starts and ends inside a block. -/
theorem bio_default_transfer_iff_bytes :
    3 + 1000 ≤ exampleDisk.totalSize ∧ ReadExact exampleDisk 0 3 1000 ∧
      WriteExact exampleDisk 0 3 1000 :=
  have hin : 3 + 1000 ≤ exampleDisk.totalSize := by decide
  have h := @bio_default_transfer_iff _ 0 _ _ hin
  ⟨hin, h.1.2 (.inr (by decide)), h.2.2 (.inr (by decide))⟩

/-- Four gigabytes from the start of it: nothing is moved but one block, and the rest comes
from behind `temp`. -/
theorem not_bio_default_transfer_exact :
    0 + 2 ^ 32 ≤ exampleDisk.totalSize ∧ ¬ReadExact exampleDisk 0 0 (2 ^ 32) ∧
      ¬WriteExact exampleDisk 0 0 (2 ^ 32) := by
  have hin : 0 + 2 ^ 32 ≤ exampleDisk.totalSize := by decide
  have hno : ¬MiddleFits exampleDisk false 0 0 (2 ^ 32) := by
    rintro (⟨h, -⟩ | h)
    · cases h
    · exact absurd h (by decide)
  exact ⟨hin, not_readExact_of_not_fits hin hno, not_writeExact_of_not_fits hin hno⟩

end Exact

end Bio
end LittleKernel
