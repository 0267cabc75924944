/-
# Subdevices of the block layer

`lib/bio/subdev.c`: `bio_publish_subdevice` and the hooks of a subdevice;
`bio_trim_range` and `bio_trim_block_range` of `lib/bio/bio.c`, with the calls that
use them; `validate_mbr_partition` and `partition_publish` of
`lib/partition/partition.c`.

A call on a subdevice is trimmed to it, shifted by its offset and handed to the same
call of its parent, down to the hook of the driver at the root.  A model of the call is
the range that hook is given, if it is called at all.

Both trims compare a sum that can wrap.  A range that wraps is not trimmed at any
level, so the driver is asked for blocks beyond the subdevice: `bioBytes_confined_iff`
and `bioBlocks_confined_iff` say for which ranges this does not happen.  The search of
`bio_publish_subdevice` for an erase region leaves `geo` at the last region when it finds
none, so on a device with an erase geometry a range beyond its end is published as long
as it is aligned: `bioPublishSubdevice_inside_iff`.

Left out: names and reference counts, the buffers, running out of memory, and the
`new_*` hooks, whose native calls a subdevice does not set.
-/

import Mathlib.Data.Nat.Basic
import Mathlib.Tactic.NormNum
import LittleKernel.Lib.Bytes

namespace LittleKernel
namespace Subdev

/-! ### Machine words -/

theorem toInt_toInt64 (x : UInt64) :
    x.toInt64.toInt = if x.toNat < 2 ^ 63 then (x.toNat : ℤ) else x.toNat - 2 ^ 64 := by
  have h : x.toInt64.toInt = x.toBitVec.toInt := rfl
  rw [h, BitVec.toInt_eq_toNat_cond]
  have hx : x.toBitVec.toNat = x.toNat := rfl
  rw [hx]
  split <;> split <;> omega

theorem toNat_toUInt64 {x : Int64} (h : 0 ≤ x.toInt) : (x.toUInt64.toNat : ℤ) = x.toInt := by
  have h' := toInt_toInt64 x.toUInt64
  rw [Int64.toInt64_toUInt64] at h'
  have := x.toUInt64.toNat_lt
  split at h' <;> omega

theorem toInt_lt (x : Int64) : x.toInt < 2 ^ 63 := x.toInt_lt

theorem bytes_lt (shift : Fin 32) {n : ℕ} (h : n < 2 ^ 32) : n * 2 ^ shift.val < 2 ^ 63 := by
  have hp : 2 ^ shift.val ≤ 2 ^ 31 := Nat.pow_le_pow_right (by norm_num) (by omega)
  calc n * 2 ^ shift.val ≤ n * 2 ^ 31 := Nat.mul_le_mul_left _ hp
    _ < 2 ^ 63 := by omega

/-- `blocks << shift`, as a `uint64_t`. -/
def bytes (shift : Fin 32) (blocks : UInt32) : UInt64 :=
  blocks.toUInt64 <<< UInt64.ofNat shift

theorem toNat_bytes (shift : Fin 32) (blocks : UInt32) :
    (bytes shift blocks).toNat = blocks.toNat * 2 ^ shift.val := by
  have hs : (UInt64.ofNat shift.val).toNat = shift.val :=
    UInt64.toNat_ofNat_of_lt' (by have := shift.isLt; simp only [UInt64.size]; omega)
  have hlt := bytes_lt shift blocks.toNat_lt
  rw [bytes, UInt64.toNat_shiftLeft, hs, Nat.mod_eq_of_lt (show shift.val < 64 by omega),
    Nat.shiftLeft_eq, UInt32.toNat_toUInt64]
  exact Nat.mod_eq_of_lt (by omega)

/-! ### Devices -/

/-- `bio_erase_geometry_info_t`. -/
structure Geometry where
  start : Int64
  size : Int64
  eraseSize : UInt64
  eraseShift : UInt64
deriving DecidableEq

/-- A `bdev_t`: a device that a driver registered, with blocks of `1 << blockShift`
bytes, or a `subdev_t`, `offset` blocks into its parent. -/
inductive Bdev where
  | root (blockShift : Fin 32) (blockCount : UInt32) (geometry : List Geometry)
  | sub (parent : Bdev) (offset blockCount : UInt32) (geometry : List Geometry)
deriving DecidableEq

namespace Bdev

/-- `block_shift`, which a subdevice has from its parent. -/
def blockShift : Bdev → Fin 32
  | root s _ _ => s
  | sub p _ _ _ => p.blockShift

def blockCount : Bdev → UInt32
  | root _ c _ => c
  | sub _ _ c _ => c

def geometry : Bdev → List Geometry
  | root _ _ g => g
  | sub _ _ _ g => g

/-- `total_size`. -/
def totalSize (d : Bdev) : Int64 := (bytes d.blockShift d.blockCount).toInt64

/-- The first block of the device, as the driver at the root counts them. -/
def base : Bdev → ℕ
  | root _ _ _ => 0
  | sub p offset _ _ => p.base + offset.toNat

/-- The device lies in its parent. -/
def Inside : Bdev → Prop
  | root _ _ _ => True
  | sub p offset blockCount _ => offset.toNat + blockCount.toNat ≤ p.blockCount.toNat

instance (d : Bdev) : Decidable d.Inside := by
  cases d <;> unfold Inside <;> infer_instance

/-- The erase regions are regions of the device. -/
def RegionsWithin (d : Bdev) : Prop :=
  ∀ g ∈ d.geometry, 0 ≤ g.start.toInt ∧ 0 ≤ g.size.toInt ∧
    g.start.toInt + g.size.toInt ≤ d.totalSize.toInt

/-- The device and all it is nested in: each lies in its parent, with erase regions of
its own. -/
def Nested : Bdev → Prop
  | d@(root _ _ _) => d.RegionsWithin
  | d@(sub p _ _ _) => p.Nested ∧ d.Inside ∧ d.RegionsWithin

theorem Nested.regionsWithin {d : Bdev} (h : d.Nested) : d.RegionsWithin := by
  cases d with
  | root => exact h
  | sub => exact h.2.2

theorem toInt_totalSize (d : Bdev) :
    d.totalSize.toInt = (d.blockCount.toNat * 2 ^ d.blockShift.val : ℕ) := by
  have := bytes_lt d.blockShift d.blockCount.toNat_lt
  rw [totalSize, toInt_toInt64, toNat_bytes, if_pos this]

/-- A nested device ends where its root can still count blocks. -/
theorem Nested.end_lt {d : Bdev} (h : d.Nested) : d.base + d.blockCount.toNat < 2 ^ 32 := by
  induction d with
  | root _ c _ => simpa [base, blockCount] using c.toNat_lt
  | sub p offset c _ ih =>
    have hp := ih h.1
    have hin : offset.toNat + c.toNat ≤ p.blockCount.toNat := h.2.1
    change p.base + offset.toNat + c.toNat < 2 ^ 32
    omega

end Bdev

/-! ### Trimming a range -/

/-- `bio_trim_range`. -/
def bioTrimRange (d : Bdev) (offset : Int64) (len : UInt64) : UInt64 :=
  if offset < 0 then 0
  else if d.totalSize ≤ offset then 0
  else if len = 0 then 0
  else if d.totalSize < (offset.toUInt64 + len).toInt64 then
    d.totalSize.toUInt64 - offset.toUInt64
  else len

/-- `bio_trim_block_range`. -/
def bioTrimBlockRange (d : Bdev) (block count : UInt32) : UInt32 :=
  if d.blockCount < block then 0
  else if count = 0 then 0
  else if d.blockCount < block + count then d.blockCount - block
  else count

/-- The range starts in the device and is not empty. -/
def Starts (d : Bdev) (offset : Int64) (len : UInt64) : Prop :=
  0 ≤ offset.toInt ∧ offset.toInt < d.totalSize.toInt ∧ len ≠ 0

instance (d : Bdev) (offset : Int64) (len : UInt64) : Decidable (Starts d offset len) := by
  unfold Starts; infer_instance

variable {d : Bdev} {offset : Int64} {len : UInt64}

theorem bioTrimRange_eq_zero (h : ¬ Starts d offset len) : bioTrimRange d offset len = 0 := by
  unfold bioTrimRange
  split
  · rfl
  · split
    · rfl
    · split
      · rfl
      · rename_i h₀ h₁ h₂
        rw [Int64.lt_iff_toInt_lt] at h₀
        rw [Int64.le_iff_toInt_le] at h₁
        exact absurd ⟨not_lt.mp h₀, not_le.mp h₁, h₂⟩ h

/-- What is left of a range that starts in the device: what lies in the device, but all
of it when its end is beyond the largest offset. -/
theorem toNat_bioTrimRange
    (h : Starts d offset len) :
    ((bioTrimRange d offset len).toNat : ℤ) =
      if d.totalSize.toInt < offset.toInt + len.toNat ∧ offset.toInt + len.toNat < 2 ^ 63
      then d.totalSize.toInt - offset.toInt else len.toNat := by
  obtain ⟨h₀, h₁, h₂⟩ := h
  have hu := toNat_toUInt64 h₀
  have ht := toNat_toUInt64 (x := d.totalSize) (by omega)
  have hT := toInt_lt d.totalSize
  have hlen := len.toNat_lt
  unfold bioTrimRange
  rw [if_neg (by rw [Int64.lt_iff_toInt_lt]; exact not_lt.mpr h₀),
    if_neg (by rw [Int64.le_iff_toInt_le]; exact not_le.mpr h₁), if_neg h₂]
  simp only [Int64.lt_iff_toInt_lt, toInt_toInt64, UInt64.toNat_add]
  have hsub : (d.totalSize.toUInt64 - offset.toUInt64).toNat =
      d.totalSize.toUInt64.toNat - offset.toUInt64.toNat :=
    UInt64.toNat_sub_of_le _ _ (by rw [UInt64.le_iff_toNat_le]; omega)
  split_ifs <;> omega

/-- The block range starts in the device, or right behind it, and is not empty. -/
def StartsBlock (d : Bdev) (block count : UInt32) : Prop :=
  block.toNat ≤ d.blockCount.toNat ∧ count ≠ 0

variable {block count : UInt32}

theorem bioTrimBlockRange_eq_zero
    (h : ¬ StartsBlock d block count) : bioTrimBlockRange d block count = 0 := by
  unfold bioTrimBlockRange
  split
  · rfl
  · split
    · rfl
    · rename_i h₀ h₁
      rw [UInt32.lt_iff_toNat_lt] at h₀
      exact absurd ⟨not_lt.mp h₀, h₁⟩ h

/-- What is left of a block range: what lies in the device, but all of it when the
number of its end is beyond the largest block number. -/
theorem toNat_bioTrimBlockRange
    (h : StartsBlock d block count) :
    (bioTrimBlockRange d block count).toNat =
      if d.blockCount.toNat < block.toNat + count.toNat ∧ block.toNat + count.toNat < 2 ^ 32
      then d.blockCount.toNat - block.toNat else count.toNat := by
  obtain ⟨h₀, h₁⟩ := h
  have hc := d.blockCount.toNat_lt
  have hcount := count.toNat_lt
  unfold bioTrimBlockRange
  rw [if_neg (by rw [UInt32.lt_iff_toNat_lt]; exact not_lt.mpr h₀), if_neg h₁]
  have hsub : (d.blockCount - block).toNat = d.blockCount.toNat - block.toNat :=
    UInt32.toNat_sub_of_le _ _ (by rw [UInt32.le_iff_toNat_le]; omega)
  simp only [UInt32.lt_iff_toNat_lt, UInt32.toNat_add]
  split_ifs <;> omega

/-! ### Byte calls -/

inductive Op where
  | read
  | write
  | erase
deriving DecidableEq

/-- A call of the root driver's `read`, `write` or `erase` hook. -/
structure ByteAccess where
  op : Op
  offset : Int64
  len : UInt64
deriving DecidableEq

/-- `block_size`. -/
def Bdev.blockSize (d : Bdev) : UInt64 := bytes d.blockShift 1

/-- `offset + subdev->offset * subdev->dev.block_size`, as the `off_t` of the parent. -/
def parentOffset (p : Bdev) (start : UInt32) (offset : Int64) : Int64 :=
  (offset.toUInt64 + start.toUInt64 * p.blockSize).toInt64

/-- `bio_read`, `bio_write` and `bio_erase`, with `subdev_read`, `subdev_write` and
`subdev_erase` as the hooks of a subdevice. -/
def bioBytes (op : Op) : Bdev → Int64 → UInt64 → Option ByteAccess
  | d@(.root _ _ _), offset, len =>
    if bioTrimRange d offset len = 0 then none
    else some ⟨op, offset, bioTrimRange d offset len⟩
  | d@(.sub p start _ _), offset, len =>
    if bioTrimRange d offset len = 0 then none
    else bioBytes op p (parentOffset p start offset) (bioTrimRange d offset len)

def bioRead : Bdev → Int64 → UInt64 → Option ByteAccess := bioBytes .read

def bioWrite : Bdev → Int64 → UInt64 → Option ByteAccess := bioBytes .write

def bioErase : Bdev → Int64 → UInt64 → Option ByteAccess := bioBytes .erase

theorem bioTrimRange_ne_zero (h : Starts d offset len) : bioTrimRange d offset len ≠ 0 := by
  intro h0
  have hspec := toNat_bioTrimRange h
  obtain ⟨_, hlt, hlen⟩ := h
  have hpos : len.toNat ≠ 0 := fun e => hlen (UInt64.toNat_inj.mp e)
  rw [h0] at hspec
  change ((0 : ℕ) : ℤ) = _ at hspec
  split at hspec <;> omega

variable {p : Bdev}

theorem toInt_parentOffset {start : UInt32} (h : 0 ≤ offset.toInt)
    (hlt : offset.toInt + (start.toNat * 2 ^ p.blockShift.val : ℕ) < 2 ^ 63) :
    (parentOffset p start offset).toInt =
      offset.toInt + (start.toNat * 2 ^ p.blockShift.val : ℕ) := by
  have hu := toNat_toUInt64 h
  have hb : p.blockSize.toNat = 2 ^ p.blockShift.val := by
    simp [Bdev.blockSize, toNat_bytes]
  have hstart := bytes_lt p.blockShift start.toNat_lt
  have hmul : (start.toUInt64 * p.blockSize).toNat = start.toNat * 2 ^ p.blockShift.val := by
    rw [UInt64.toNat_mul, hb, UInt32.toNat_toUInt64]
    exact Nat.mod_eq_of_lt (by omega)
  rw [parentOffset, toInt_toInt64, UInt64.toNat_add, hmul]
  split <;> omega

/-- **A call one level up.** What is left of a range of a subdevice starts in its parent,
`start` blocks further on, and is not trimmed again. -/
theorem starts_parent {start c : UInt32} {g : List Geometry} (hin : (Bdev.sub p start c g).Inside)
    (h : Starts (.sub p start c g) offset len) :
    (parentOffset p start offset).toInt = offset.toInt + (start.toNat * 2 ^ p.blockShift.val : ℕ) ∧
      Starts p (parentOffset p start offset) (bioTrimRange (.sub p start c g) offset len) ∧
      bioTrimRange p (parentOffset p start offset) (bioTrimRange (.sub p start c g) offset len) =
        bioTrimRange (.sub p start c g) offset len := by
  have hspec := toNat_bioTrimRange h
  have hne := bioTrimRange_ne_zero h
  obtain ⟨h0, hlt, hlen⟩ := h
  generalize bioTrimRange (.sub p start c g) offset len = len' at hspec hne ⊢
  have hT : (Bdev.sub p start c g).totalSize.toInt = (c.toNat * 2 ^ p.blockShift.val : ℕ) :=
    Bdev.toInt_totalSize _
  have hP := Bdev.toInt_totalSize p
  have hle : (start.toNat + c.toNat) * 2 ^ p.blockShift.val ≤
      p.blockCount.toNat * 2 ^ p.blockShift.val := Nat.mul_le_mul_right _ hin
  have hPlt := bytes_lt p.blockShift p.blockCount.toNat_lt
  rw [Nat.add_mul] at hle
  have hat := @toInt_parentOffset _ p start h0 (by omega)
  have hstarts : Starts p (parentOffset p start offset) len' := ⟨by omega, by omega, hne⟩
  refine ⟨hat, hstarts, UInt64.toNat_inj.mp ?_⟩
  have hspec' := toNat_bioTrimRange hstarts
  split_ifs at hspec hspec' <;> omega

theorem bioBytes_eq_none {op : Op}
    (h : ¬ Starts d offset len) : bioBytes op d offset len = none := by
  cases d <;> simp only [bioBytes, bioTrimRange_eq_zero h, if_true]

/-- **A call down to the root.** The root's hook is given the range that is left, at the
place of the device on the root. -/
theorem bioBytes_of_starts {op : Op} (hn : d.Nested) (h : Starts d offset len) :
    ∃ a, bioBytes op d offset len = some ⟨op, a, bioTrimRange d offset len⟩ ∧
      a.toInt = (d.base * 2 ^ d.blockShift.val : ℕ) + offset.toInt := by
  have hne := bioTrimRange_ne_zero h
  induction d generalizing offset len with
  | root s c g =>
    refine ⟨offset, ?_, by simp [Bdev.base]⟩
    rw [bioBytes, if_neg hne]
  | sub p start c g ih =>
    obtain ⟨hat, hstarts, htrim⟩ := starts_parent hn.2.1 h
    obtain ⟨a, ha, haddr⟩ := ih hn.1 hstarts (by rw [htrim]; exact hne)
    refine ⟨a, ?_, ?_⟩
    · rw [bioBytes, if_neg hne, ha, htrim]
    · change a.toInt = ((p.base + start.toNat) * 2 ^ p.blockShift.val : ℕ) + offset.toInt
      rw [haddr, hat, Nat.add_mul]
      push_cast
      omega

/-- The range lies in the device. -/
def Bdev.HoldsBytes (d : Bdev) (a : ByteAccess) : Prop :=
  (d.base * 2 ^ d.blockShift.val : ℕ) ≤ a.offset.toInt ∧
    a.offset.toInt + a.len.toNat ≤ ((d.base + d.blockCount.toNat) * 2 ^ d.blockShift.val : ℕ)

/-- **Byte calls.** A call reaches only its own device if and only if its range is trimmed
to nothing or ends before the largest offset. -/
theorem bioBytes_confined_iff (hn : d.Nested) (op : Op) (offset : Int64) (len : UInt64) :
    (∀ a ∈ bioBytes op d offset len, d.HoldsBytes a) ↔
      ¬ Starts d offset len ∨ offset.toInt + len.toNat < 2 ^ 63 := by
  by_cases h : Starts d offset len
  swap
  · simp [bioBytes_eq_none h, h]
  obtain ⟨a, ha, haddr⟩ := @bioBytes_of_starts _ _ _ op hn h
  have hspec := toNat_bioTrimRange h
  have hT := Bdev.toInt_totalSize d
  have hend := bytes_lt d.blockShift hn.end_lt
  simp only [ha, Option.mem_def, Option.some.injEq, forall_eq', h, not_true_eq_false, false_or,
    Bdev.HoldsBytes, Nat.add_mul] at hend ⊢
  obtain ⟨h0, hlt, _⟩ := h
  generalize d.base * 2 ^ d.blockShift.val = b at *
  generalize d.blockCount.toNat * 2 ^ d.blockShift.val = c at *
  constructor
  · intro hc
    by_contra hlong
    rw [if_neg (by omega)] at hspec
    omega
  · intro hshort
    split at hspec <;> omega

/-! ### Block calls -/

inductive BlockOp where
  | read
  | write
deriving DecidableEq

/-- A call of the root driver's `read_block` or `write_block` hook. -/
structure BlockAccess where
  op : BlockOp
  block : UInt32
  count : UInt32
deriving DecidableEq

/-- `bio_read_block` and `bio_write_block`, with `subdev_read_block` and
`subdev_write_block` as the hooks of a subdevice. -/
def bioBlocks (op : BlockOp) : Bdev → UInt32 → UInt32 → Option BlockAccess
  | d@(.root _ _ _), block, count =>
    if bioTrimBlockRange d block count = 0 then none
    else some ⟨op, block, bioTrimBlockRange d block count⟩
  | d@(.sub p start _ _), block, count =>
    if bioTrimBlockRange d block count = 0 then none
    else bioBlocks op p (block + start) (bioTrimBlockRange d block count)

def bioReadBlock : Bdev → UInt32 → UInt32 → Option BlockAccess := bioBlocks .read

def bioWriteBlock : Bdev → UInt32 → UInt32 → Option BlockAccess := bioBlocks .write

/-- A block range that is left starts in the parent as well, and is not trimmed again. -/
theorem startsBlock_parent {start c : UInt32} {g : List Geometry} (hin : (Bdev.sub p start c g).Inside)
    (h : StartsBlock (.sub p start c g) block count)
    (hne : bioTrimBlockRange (.sub p start c g) block count ≠ 0) :
    (block + start).toNat = start.toNat + block.toNat ∧
      StartsBlock p (block + start) (bioTrimBlockRange (.sub p start c g) block count) ∧
      bioTrimBlockRange p (block + start) (bioTrimBlockRange (.sub p start c g) block count) =
        bioTrimBlockRange (.sub p start c g) block count := by
  have hspec := toNat_bioTrimBlockRange h
  obtain ⟨hle, hcount⟩ := h
  generalize bioTrimBlockRange (.sub p start c g) block count = count' at hspec hne ⊢
  have hC : (Bdev.sub p start c g).blockCount = c := rfl
  have hin' : start.toNat + c.toNat ≤ p.blockCount.toNat := hin
  have hP := p.blockCount.toNat_lt
  rw [hC] at hspec hle
  have hat : (block + start).toNat = start.toNat + block.toNat := by
    rw [UInt32.toNat_add]
    omega
  have hstarts : StartsBlock p (block + start) count' := ⟨by omega, hne⟩
  refine ⟨hat, hstarts, UInt32.toNat_inj.mp ?_⟩
  have hspec' := toNat_bioTrimBlockRange hstarts
  split_ifs at hspec hspec' <;> omega

theorem bioBlocks_eq_none {op : BlockOp}
    (h : bioTrimBlockRange d block count = 0) : bioBlocks op d block count = none := by
  cases d <;> simp only [bioBlocks, h, if_true]

/-- **A block call down to the root.** -/
theorem bioBlocks_of_ne_zero {op : BlockOp}
    (hn : d.Nested) (hne : bioTrimBlockRange d block count ≠ 0) :
    ∃ a, bioBlocks op d block count = some ⟨op, a, bioTrimBlockRange d block count⟩ ∧
      a.toNat = d.base + block.toNat := by
  induction d generalizing block count with
  | root s c g =>
    refine ⟨block, ?_, by simp [Bdev.base]⟩
    rw [bioBlocks, if_neg hne]
  | sub p start c g ih =>
    have h : StartsBlock (.sub p start c g) block count := by
      by_contra h
      exact hne (bioTrimBlockRange_eq_zero h)
    obtain ⟨hat, _, htrim⟩ := startsBlock_parent hn.2.1 h hne
    obtain ⟨a, ha, haddr⟩ := ih hn.1 (by rw [htrim]; exact hne)
    refine ⟨a, ?_, ?_⟩
    · rw [bioBlocks, if_neg hne, ha, htrim]
    · change a.toNat = p.base + start.toNat + block.toNat
      omega

/-- The blocks lie in the device. -/
def Bdev.HoldsBlocks (d : Bdev) (a : BlockAccess) : Prop :=
  d.base ≤ a.block.toNat ∧ a.block.toNat + a.count.toNat ≤ d.base + d.blockCount.toNat

/-- **Block calls.** A call reaches only its own device if and only if its range starts
behind it, is empty, or ends before the largest block number. -/
theorem bioBlocks_confined_iff (hn : d.Nested) (op : BlockOp) (block count : UInt32) :
    (∀ a ∈ bioBlocks op d block count, d.HoldsBlocks a) ↔
      ¬ StartsBlock d block count ∨ block.toNat + count.toNat < 2 ^ 32 := by
  by_cases h : StartsBlock d block count
  swap
  · simp [bioBlocks_eq_none (bioTrimBlockRange_eq_zero h), h]
  have hspec := toNat_bioTrimBlockRange h
  have hend := hn.end_lt
  obtain ⟨hle, hcount⟩ := h
  have hpos : count.toNat ≠ 0 := fun e => hcount (UInt32.toNat_inj.mp e)
  by_cases h0 : bioTrimBlockRange d block count = 0
  · -- only an empty rest is trimmed to nothing, and the sum did not wrap then
    have hz : (bioTrimBlockRange d block count).toNat = 0 := by rw [h0]; rfl
    rw [hz] at hspec
    have hshort : block.toNat + count.toNat < 2 ^ 32 := by split_ifs at hspec <;> omega
    exact iff_of_true (by simp [bioBlocks_eq_none h0]) (.inr hshort)
  obtain ⟨a, ha, haddr⟩ := @bioBlocks_of_ne_zero _ _ _ op hn h0
  simp only [ha, Option.mem_def, Option.some.injEq, forall_eq', StartsBlock, hle, hcount, ne_eq,
    not_false_eq_true, and_self, not_true_eq_false, false_or, Bdev.HoldsBlocks]
  constructor
  · intro hc
    by_contra hlong
    rw [if_neg (by omega)] at hspec
    omega
  · intro hshort
    split_ifs at hspec <;> omega

/-! ### Publishing a subdevice -/

/-- `bio_contains_range`. -/
def bioContainsRange (containerStart containerLen containedStart containedLen : UInt64) :
    Bool :=
  containerStart ≤ containedStart &&
    containedStart + containedLen ≤ containerStart + containerLen

def Geometry.contains (g : Geometry) (byteStart byteSize : UInt64) : Bool :=
  bioContainsRange g.start.toUInt64 g.size.toUInt64 byteStart byteSize

/-- The search of `bio_publish_subdevice`: `geo` is the region looked at last. -/
def searchGeometry (byteStart byteSize : UInt64) : Option Geometry → List Geometry →
    Option Geometry
  | geo, [] => geo
  | _, g :: gs =>
    if g.contains byteStart byteSize then some g
    else searchGeometry byteStart byteSize (some g) gs

/-- `erase_mask`. -/
def Geometry.eraseMask (g : Geometry) : UInt64 := (1 <<< g.eraseShift) - 1

/-- Start and length are whole erase units of the region. -/
def Geometry.Aligned (g : Geometry) (byteStart byteSize : UInt64) : Prop :=
  byteStart &&& g.eraseMask = 0 ∧ byteSize &&& g.eraseMask = 0

instance (g : Geometry) (byteStart byteSize : UInt64) :
    Decidable (g.Aligned byteStart byteSize) := by
  unfold Geometry.Aligned; infer_instance

/-- `bio_publish_subdevice` on the device it has opened; `none` is
`ERR_INVALID_ARGS`. -/
def bioPublishSubdevice (parent : Bdev) (startblock blockCount : UInt32) : Option Bdev :=
  if parent.geometry ≠ [] then
    let byteStart := bytes parent.blockShift startblock
    let byteSize := bytes parent.blockShift blockCount
    match searchGeometry byteStart byteSize none parent.geometry with
    | none => none
    | some geo =>
      if geo.Aligned byteStart byteSize then
        some (.sub parent startblock blockCount
          [⟨0, byteSize.toInt64, geo.eraseSize, geo.eraseShift⟩])
      else none
  else
    let endblock := startblock + blockCount
    if endblock < startblock ∨ parent.blockCount < endblock then none
    else some (.sub parent startblock blockCount [])

/-- A search that finds no region ends with the last one. -/
theorem searchGeometry_of_forall {byteStart byteSize : UInt64} {gs : List Geometry}
    {geo : Option Geometry} (h : ∀ r ∈ gs, ¬ r.contains byteStart byteSize) :
    searchGeometry byteStart byteSize geo gs = gs.getLast?.or geo := by
  induction gs generalizing geo with
  | nil => rfl
  | cons r rs ih =>
    rw [searchGeometry, if_neg (h r List.mem_cons_self),
      ih fun r' hr' => h r' (List.mem_cons_of_mem _ hr'), List.getLast?_cons]
    cases rs.getLast? <;> rfl

/-- A range in an erase region of a device lies in the device. -/
theorem le_of_contains (hp : p.RegionsWithin) {g : Geometry} (hg : g ∈ p.geometry)
    {start count : UInt32} (h : g.contains (bytes p.blockShift start) (bytes p.blockShift count)) :
    start.toNat + count.toNat ≤ p.blockCount.toNat := by
  obtain ⟨h0, hs, hend⟩ := hp g hg
  have hT := Bdev.toInt_totalSize p
  have hTlt := bytes_lt p.blockShift p.blockCount.toNat_lt
  have hstart := bytes_lt p.blockShift start.toNat_lt
  have hcount := bytes_lt p.blockShift count.toNat_lt
  have hus := toNat_toUInt64 h0
  have hul := toNat_toUInt64 hs
  simp only [Geometry.contains, bioContainsRange, Bool.and_eq_true, decide_eq_true_eq,
    UInt64.le_iff_toNat_le, UInt64.toNat_add, toNat_bytes] at h
  have hle : (start.toNat + count.toNat) * 2 ^ p.blockShift.val ≤
      p.blockCount.toNat * 2 ^ p.blockShift.val := by
    rw [Nat.add_mul]
    omega
  exact Nat.le_of_mul_le_mul_right hle (Nat.two_pow_pos _)

/-- What lets a range be published safely: the device has no erase regions, the range lies
in the device, or it is not made of erase units of the last region. -/
def Publishable (p : Bdev) (start count : UInt32) : Prop :=
  p.geometry = [] ∨ start.toNat + count.toNat ≤ p.blockCount.toNat ∨
    ∃ g ∈ p.geometry.getLast?,
      ¬ g.Aligned (bytes p.blockShift start) (bytes p.blockShift count)

/-- **Publishing.** What gets published lies in its parent if and only if the parent has no
erase regions, the range lies in it, or the range is turned away for its alignment. -/
theorem bioPublishSubdevice_inside_iff (hp : p.RegionsWithin) (start count : UInt32) :
    (∀ s ∈ bioPublishSubdevice p start count, s.Inside) ↔ Publishable p start count := by
  by_cases hg : p.geometry = []
  · refine iff_of_true ?_ (.inl hg)
    intro s hs
    simp only [bioPublishSubdevice, hg, ne_eq, not_true_eq_false, if_false, Option.mem_def,
      UInt32.lt_iff_toNat_lt, UInt32.toNat_add, Option.ite_none_left_eq_some] at hs
    obtain ⟨hno, hs⟩ := hs
    have := start.toNat_lt
    have := count.toNat_lt
    have hle : start.toNat + count.toNat ≤ p.blockCount.toNat := by omega
    cases hs
    exact hle
  by_cases hle : start.toNat + count.toNat ≤ p.blockCount.toNat
  · refine iff_of_true ?_ (.inr (.inl hle))
    intro s hs
    simp only [bioPublishSubdevice, ne_eq, hg, not_false_eq_true, if_true, Option.mem_def] at hs
    split at hs
    · cases hs
    · split at hs <;> cases hs
      exact hle
  · -- no region contains the range, so the search ends at the last one
    obtain ⟨g, hlast⟩ : ∃ g, p.geometry.getLast? = some g := by
      cases h : p.geometry.getLast? with
      | none => exact absurd (List.getLast?_eq_none_iff.mp h) hg
      | some g => exact ⟨g, rfl⟩
    have hsearch := @searchGeometry_of_forall _ _ p.geometry none fun r hr hc =>
      hle (@le_of_contains _ hp _ hr start count hc)
    simp only [Publishable, hg, hle, hlast, bioPublishSubdevice, hsearch, ne_eq,
      not_false_eq_true, if_true, false_or, Option.or_none, Option.mem_def, Option.some.injEq,
      exists_eq_left']
    by_cases ha : g.Aligned (bytes p.blockShift start) (bytes p.blockShift count)
    · refine iff_of_false (fun h => hle ?_) (not_not.mpr ha)
      exact h (.sub p start count _) (if_pos ha)
    · refine iff_of_true (fun s hs => ?_) ha
      rw [if_neg ha] at hs
      cases hs

/-- **Nesting composes.** A subdevice of a nested device that lies in it is nested, and its
blocks are blocks of the parent. -/
theorem bioPublishSubdevice_nested {p s : Bdev} (hp : p.Nested) {start count : UInt32}
    (hs : bioPublishSubdevice p start count = some s) (hin : s.Inside) :
    s.Nested ∧ p.base ≤ s.base ∧ s.base + s.blockCount.toNat ≤ p.base + p.blockCount.toNat := by
  obtain ⟨g, rfl, hg⟩ : ∃ g, s = .sub p start count g ∧
      ∀ r ∈ g, r.start = 0 ∧ r.size = (bytes p.blockShift count).toInt64 := by
    simp only [bioPublishSubdevice] at hs
    split at hs
    · split at hs
      · cases hs
      · split at hs <;> cases hs
        exact ⟨_, rfl, by simp⟩
    · split at hs <;> cases hs
      exact ⟨_, rfl, by simp⟩
  have hle : start.toNat + count.toNat ≤ p.blockCount.toNat := hin
  refine ⟨⟨hp, hin, ?_⟩, Nat.le_add_right _ _, ?_⟩
  · intro r hr
    obtain ⟨h0, h1⟩ := hg r hr
    have hT := Bdev.toInt_totalSize (.sub p start count g)
    have hsize : r.size.toInt = (Bdev.sub p start count g).totalSize.toInt := by
      rw [h1]
      rfl
    rw [h0, hsize]
    refine ⟨le_refl _, by omega, ?_⟩
    change 0 + _ ≤ _
    omega
  · change p.base + start.toNat + count.toNat ≤ p.base + p.blockCount.toNat
    omega

/-! ### The partition scanner -/

/-- What the scanner reads of a `struct mbr_part`. -/
structure MbrPart where
  status : UInt8
  type : UInt8
  lbaStart : UInt32
  lbaLength : UInt32
deriving DecidableEq

/-- Entry `i` of the table at byte 446 of the boot sector. -/
def mbrPart (buf : List UInt8) (i : ℕ) : MbrPart where
  status := buf.getD (446 + 16 * i) 0
  type := buf.getD (446 + 16 * i + 4) 0
  lbaStart := UInt32.ofNat (Bytes.ofLe (Bytes.field buf (446 + 16 * i + 8) 4))
  lbaLength := UInt32.ofNat (Bytes.ofLe (Bytes.field buf (446 + 16 * i + 12) 4))

/-- `validate_mbr_partition`. -/
def validateMbrPartition (dev : Bdev) (part : MbrPart) : Bool :=
  if part.type = 0 then false
  else if part.status ≠ 0x80 ∧ part.status ≠ 0 then false
  else if dev.blockCount ≤ part.lbaStart then false
  else if dev.blockCount < part.lbaStart + part.lbaLength then false
  else true

/-- `partition_publish` on the boot sector it has read: the subdevices it publishes. -/
def partitionPublish (dev : Bdev) (buf : List UInt8) : List Bdev :=
  if buf.getD 510 0 ≠ 0x55 ∨ buf.getD 511 0 ≠ 0xaa then []
  else (List.range 4).filterMap fun i =>
    if validateMbrPartition dev (mbrPart buf i) then
      bioPublishSubdevice dev (mbrPart buf i).lbaStart (mbrPart buf i).lbaLength
    else none

/-- **Scanning.** All published partitions lie in the device if and only if each entry that
passes validation may be published. -/
theorem partitionPublish_inside_iff (hp : p.RegionsWithin) (buf : List UInt8) :
    (∀ s ∈ partitionPublish p buf, s.Inside) ↔ (buf.getD 510 0 = 0x55 ∧ buf.getD 511 0 = 0xaa →
        ∀ i < 4, validateMbrPartition p (mbrPart buf i) →
          Publishable p (mbrPart buf i).lbaStart (mbrPart buf i).lbaLength) := by
  by_cases htag : buf.getD 510 0 = 0x55 ∧ buf.getD 511 0 = 0xaa
  swap
  · have hno : partitionPublish p buf = [] := if_pos (by tauto)
    exact iff_of_true (by simp [hno]) fun h => absurd h htag
  have hlist : partitionPublish p buf = _ := if_neg (by tauto)
  simp only [htag, hlist, List.mem_filterMap, List.mem_range, and_self, forall_const]
  constructor
  · intro h i hi hv
    refine (bioPublishSubdevice_inside_iff hp _ _).mp fun s hs => h s ⟨i, hi, ?_⟩
    rw [if_pos hv]
    exact hs
  · rintro h s ⟨i, hi, hs⟩
    split at hs
    · rename_i hv
      exact (bioPublishSubdevice_inside_iff hp _ _).mpr (h i hi hv) s hs
    · cases hs

/-! ### Confinement -/

end Subdev
end LittleKernel
