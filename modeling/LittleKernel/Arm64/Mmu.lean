/-
# The arm64 page tables

`arch/arm64/mmu.c`: `arch_mmu_query`, `arm64_mmu_get_page_table`,
`page_table_is_clear`, `arm64_mmu_unmap_pt`, `arm64_mmu_map_pt`,
`arm64_mmu_map` and `arm64_mmu_unmap`, with the descriptors of
`arch/arm64/include/arch/arm64/mmu.h`.

A table is named by its physical address, which is what a table descriptor holds
and what `paddr_to_kvaddr` turns into a pointer.  `n` counts the levels below a
table: the tables of level 0 hold page descriptors, `indexShift ps n` is the
`index_shift` at level `n`, and `index_shift - (page_size_shift - 3)` that of the
level below.

The page allocator gives the next page of its pool, or fails; which page it gives
and when it fails is left open, but a page that is in use is not given out again.
The loops of `arm64_mmu_map_pt` and `arm64_mmu_unmap_pt` are split from their
bodies, which work on one entry of the table.  The TLB is left out.
-/

import LittleKernel.Lib.Word
import Mathlib.Data.Nat.Bitwise
import Mathlib.Logic.Function.Basic

namespace LittleKernel
namespace Arm64

open Word

/-! ### Descriptors -/

/-- `MMU_PTE_DESCRIPTOR_MASK`. -/
def pteDescriptorMask : ℕ := 3

/-- `MMU_PTE_L012_DESCRIPTOR_BLOCK`. -/
def pteBlock : ℕ := 1

/-- `MMU_PTE_L012_DESCRIPTOR_TABLE`. -/
def pteTable : ℕ := 3

/-- `MMU_PTE_L3_DESCRIPTOR_PAGE`. -/
def ptePage : ℕ := 3

/-- `MMU_PTE_OUTPUT_ADDR_MASK`, bits 12 to 47. -/
def pteOutputAddrMask : ℕ := 0xfffffffff000

/-- `MMU_PTE_DESCRIPTOR_BLOCK_MAX_SHIFT`. -/
def blockMaxShift : ℕ := 30

/-- `MMU_LX_X`, counted from the last level. -/
def indexShift (ps n : ℕ) : ℕ := ps + n * (ps - 3)

/-- The flags `arch_mmu_query` reads off a descriptor; `none` for its panic. -/
def mmuFlags (pte : ℕ) : Option ℕ :=
  let ns := if pte &&& 0x20 ≠ 0 then 0x20 else 0
  let perm := (if pte &&& 0xc0 = 0x40 then 4 else if pte &&& 0xc0 = 0x80 then 8
    else if pte &&& 0xc0 = 0xc0 then 12 else 0)
  let xn := if pte &&& 2 ^ 54 ≠ 0 ∧ pte &&& 2 ^ 53 ≠ 0 then 16 else 0
  if pte &&& 0x1c = 0 then some (ns ||| 1 ||| perm ||| xn)
  else if pte &&& 0x1c = 4 then some (ns ||| 2 ||| perm ||| xn)
  else if pte &&& 0x1c = 8 then some (ns ||| perm ||| xn)
  else none

/-- `mmu_flags_to_pte_attr`, which returns `ERR_INVALID_ARGS` as attributes. -/
def mmuFlagsToPteAttr (flags : ℕ) : ℕ :=
  let perm := (if flags &&& 12 = 0 then 0 else if flags &&& 12 = 8 then 0x80
    else if flags &&& 12 = 4 then 0x40 else 0xc0)
  let xn := if flags &&& 16 ≠ 0 then 2 ^ 54 ||| 2 ^ 53 else 0
  let ns := if flags &&& 32 ≠ 0 then 0x20 else 0
  if flags &&& 3 = 0 then 0x400 ||| 8 ||| 0x300 ||| perm ||| xn ||| ns
  else if flags &&& 3 = 1 then 0x400 ||| perm ||| xn ||| ns
  else if flags &&& 3 = 2 then 0x400 ||| 4 ||| perm ||| xn ||| ns
  else 2 ^ 64 - 8

/-! ### The tables -/

/-- The entries of each table, the pages in use as tables, and what the allocator will
answer. -/
structure Tables where
  pte : ℕ → ℕ → ℕ
  live : ℕ → Bool
  pool : List (Option ℕ)

namespace Tables

def setPte (s : Tables) (table index v : ℕ) : Tables :=
  { s with pte := Function.update s.pte table (Function.update (s.pte table) index v) }

/-- `alloc_page_table`, with the `memset` of the new table. -/
def allocPageTable (s : Tables) : Tables × Option ℕ :=
  match s.pool with
  | some a :: pool =>
    if s.live a = false ∧ a &&& pteOutputAddrMask = a then
      ({ pte := Function.update s.pte a fun _ => 0
         live := Function.update s.live a true
         pool := pool }, some a)
    else ({ s with pool := pool }, none)
  | _ :: pool => ({ s with pool := pool }, none)
  | [] => (s, none)

/-- `free_page_table`. -/
def freePageTable (s : Tables) (table : ℕ) : Tables :=
  { s with live := Function.update s.live table false }

/-- `page_table_is_clear`. -/
def pageTableIsClear (ps : ℕ) (s : Tables) (table : ℕ) : Bool :=
  (List.range (2 ^ (ps - 3))).all fun i => s.pte table i = 0

end Tables

/-! ### The walk -/

/-- What the loop of `arch_mmu_query` comes to: a descriptor that maps `2 ^ shift` bytes,
with the address. -/
inductive Walk where
  | notFound
  | leaf (shift pte paddr : ℕ)
  | panic
  deriving DecidableEq

/-- The loop of `arch_mmu_query`. -/
def walk (ps : ℕ) (m : ℕ → ℕ → ℕ) : ℕ → ℕ → ℕ → Walk
  | 0, table, rem =>
    let index := rem >>> indexShift ps 0
    let rem := rem - index <<< indexShift ps 0
    let pte := m table index
    if pte &&& pteDescriptorMask = 0 then .notFound
    else if pte &&& pteDescriptorMask = ptePage then
      .leaf (indexShift ps 0) pte ((pte &&& pteOutputAddrMask) + rem)
    else .panic
  | n + 1, table, rem =>
    let index := rem >>> indexShift ps (n + 1)
    let rem := rem - index <<< indexShift ps (n + 1)
    let pte := m table index
    if pte &&& pteDescriptorMask = 0 then .notFound
    else if pte &&& pteDescriptorMask = pteBlock then
      .leaf (indexShift ps (n + 1)) pte ((pte &&& pteOutputAddrMask) + rem)
    else if pte &&& pteDescriptorMask = pteTable then
      walk ps m n (pte &&& pteOutputAddrMask) rem
    else .panic

/-! ### Unmapping -/

/-- The loop of `arm64_mmu_unmap_pt`, over the entries of a table. -/
def unmapLoop (entry : Tables → ℕ → ℕ → ℕ → Tables) (shift : ℕ) : ℕ → Tables → ℕ → ℕ → Tables
  | 0, s, _, _ => s
  | fuel + 1, s, vaddrRel, size =>
    if size = 0 then s
    else
      let vaddrRem := vaddrRel &&& (2 ^ shift - 1)
      let chunkSize := min size (2 ^ shift - vaddrRem)
      unmapLoop entry shift fuel (entry s (vaddrRel >>> shift) vaddrRem chunkSize)
        (vaddrRel + chunkSize) (size - chunkSize)

/-- The body of the loop: one entry of the table. -/
def unmapEntry (ps : ℕ) : ℕ → ℕ → Tables → ℕ → ℕ → ℕ → Tables
  | 0, table, s, index, _, _ => if s.pte table index ≠ 0 then s.setPte table index 0 else s
  | n + 1, table, s, index, vaddrRem, chunkSize =>
    let pte := s.pte table index
    if pte &&& pteDescriptorMask = pteTable then
      let next := pte &&& pteOutputAddrMask
      let s₁ := unmapLoop (unmapEntry ps n next) (indexShift ps n) chunkSize s vaddrRem chunkSize
      if chunkSize = 2 ^ indexShift ps (n + 1) ∨ s₁.pageTableIsClear ps next then
        (s₁.setPte table index 0).freePageTable next
      else s₁
    else if pte ≠ 0 then s.setPte table index 0
    else s

/-- `arm64_mmu_unmap_pt`.  A chunk has at least one byte, so `size` turns are enough. -/
def arm64MmuUnmapPt (ps n : ℕ) (s : Tables) (vaddrRel size table : ℕ) : Tables :=
  unmapLoop (unmapEntry ps n table) (indexShift ps n) size s vaddrRel size

/-! ### Mapping -/

/-- What `arm64_mmu_map` returns. -/
inductive MmuRet where
  | ok
  | errInvalidArgs
  | errGeneric
  deriving DecidableEq

/-- `arm64_mmu_get_page_table`: the table, or `NULL`; `none` for the panic. -/
def arm64MmuGetPageTable (s : Tables) (index table : ℕ) : Option (Tables × Option ℕ) :=
  let pte := s.pte table index
  if pte &&& pteDescriptorMask = 0 then
    match s.allocPageTable with
    | (s₁, none) => some (s₁, none)
    | (s₁, some a) => some (s₁.setPte table index (a ||| pteTable), some a)
  else if pte &&& pteDescriptorMask = pteTable then some (s, some (pte &&& pteOutputAddrMask))
  else if pte &&& pteDescriptorMask = pteBlock then some (s, none)
  else none

/-- The loop of `arm64_mmu_map_pt`, over the entries of a table: the tables and the size
that is left, `0` unless an entry fails. -/
def mapLoop (entry : Tables → ℕ → ℕ → ℕ → ℕ → ℕ → Option (Tables × Bool)) (shift : ℕ) :
    ℕ → Tables → ℕ → ℕ → ℕ → Option (Tables × ℕ)
  | 0, s, _, _, size => some (s, size)
  | fuel + 1, s, vaddrRel, paddr, size =>
    if size = 0 then some (s, 0)
    else
      let vaddrRem := vaddrRel &&& (2 ^ shift - 1)
      let chunkSize := min size (2 ^ shift - vaddrRem)
      match entry s vaddrRel paddr (vaddrRel >>> shift) vaddrRem chunkSize with
      | none => none
      | some (s₁, false) => some (s₁, size)
      | some (s₁, true) =>
        mapLoop entry shift fuel s₁ (vaddrRel + chunkSize) (u64 (paddr + chunkSize))
          (size - chunkSize)

/-- `arm64_mmu_map_pt` around its loop: the check of the arguments, and what undoes the
entries before one that fails. -/
def mapTable (ps n table : ℕ) (entry : Tables → ℕ → ℕ → ℕ → ℕ → ℕ → Option (Tables × Bool))
    (s : Tables) (vaddrRel paddr size : ℕ) : Option (Tables × MmuRet) :=
  if (vaddrRel ||| paddr ||| size) &&& (2 ^ ps - 1) ≠ 0 then some (s, .errInvalidArgs)
  else
    match mapLoop entry (indexShift ps n) size s vaddrRel paddr size with
    | none => none
    | some (s₁, left) =>
      if left = 0 then some (s₁, .ok)
      else some (arm64MmuUnmapPt ps n s₁ vaddrRel (size - left) table, .errGeneric)

/-- The chunk needs a table of its own. -/
def NeedsTable (shift vaddrRel paddr chunkSize : ℕ) : Prop :=
  (vaddrRel ||| paddr) &&& (2 ^ shift - 1) ≠ 0 ∨ chunkSize ≠ 2 ^ shift ∨ blockMaxShift < shift

instance (shift vaddrRel paddr chunkSize : ℕ) :
    Decidable (NeedsTable shift vaddrRel paddr chunkSize) :=
  inferInstanceAs (Decidable (_ ∨ _ ∨ _))

/-- A block or page descriptor is written, unless the entry is in use. -/
def putPte (s : Tables) (table index pte : ℕ) : Tables × Bool :=
  if s.pte table index ≠ 0 then (s, false) else (s.setPte table index pte, true)

/-- The body of the loop: one entry of the table.  At the last level every chunk is a page,
on a page boundary. -/
def mapEntry (ps attrs : ℕ) : ℕ → ℕ → Tables → ℕ → ℕ → ℕ → ℕ → ℕ → Option (Tables × Bool)
  | 0, table, s, vaddrRel, paddr, index, _, chunkSize =>
    if NeedsTable (indexShift ps 0) vaddrRel paddr chunkSize then none
    else some (putPte s table index (paddr ||| attrs ||| ptePage))
  | n + 1, table, s, vaddrRel, paddr, index, vaddrRem, chunkSize =>
    if NeedsTable (indexShift ps (n + 1)) vaddrRel paddr chunkSize then
      match arm64MmuGetPageTable s index table with
      | none => none
      | some (s₁, none) => some (s₁, false)
      | some (s₁, some next) =>
        (mapTable ps n next (mapEntry ps attrs n next) s₁ vaddrRem paddr chunkSize).map
          fun r => (r.1, decide (r.2 = .ok))
    else some (putPte s table index (paddr ||| attrs ||| pteBlock))

/-- `arm64_mmu_map_pt`. -/
def arm64MmuMapPt (ps attrs n : ℕ) (s : Tables) (vaddrRel paddr size table : ℕ) :
    Option (Tables × MmuRet) :=
  mapTable ps n table (mapEntry ps attrs n table) s vaddrRel paddr size

/-! ### Address spaces -/

/-- An address space: `base` and `size` of `arch_aspace_t`, and what `arch_mmu_map` passes
on for it, the base and the size of what the top table covers, its level, the page size and
the table. -/
structure Aspace where
  base : ℕ
  size : ℕ
  vaddrBase : ℕ
  topSizeShift : ℕ
  topLevel : ℕ
  pageSizeShift : ℕ
  ttVirt : ℕ
  page_ge : 12 ≤ pageSizeShift
  page_le : pageSizeShift ≤ 16
  top_le : indexShift pageSizeShift topLevel ≤ topSizeShift
  size_le : topSizeShift ≤ 48
  fits : vaddrBase + 2 ^ topSizeShift ≤ 2 ^ 64
  base_le : vaddrBase ≤ base
  end_le : base + size ≤ vaddrBase + 2 ^ topSizeShift

/-- What `arch_mmu_query` returns. -/
inductive Answer where
  | outOfRange
  | notFound
  | found (paddr flags : ℕ)
  | panic
  deriving DecidableEq

/-- The end of `arch_mmu_query`. -/
def Walk.answer : Walk → Answer
  | .notFound => .notFound
  | .leaf _ pte paddr => (mmuFlags pte).elim .panic (.found paddr)
  | .panic => .panic

variable (A : Aspace)

/-- `is_valid_vaddr`. -/
def Aspace.IsValidVaddr (vaddr : ℕ) : Prop := A.base ≤ vaddr ∧ vaddr < A.base + A.size

instance (vaddr : ℕ) : Decidable (A.IsValidVaddr vaddr) := inferInstanceAs (Decidable (_ ∧ _))

/-- `arch_mmu_query`. -/
def archMmuQuery (s : Tables) (vaddr : ℕ) : Answer :=
  if A.IsValidVaddr vaddr then
    let rem := sub64 vaddr A.vaddrBase
    if rem >>> indexShift A.pageSizeShift A.topLevel <
        2 ^ (A.topSizeShift - indexShift A.pageSizeShift A.topLevel) then
      (walk A.pageSizeShift s.pte A.topLevel A.ttVirt rem).answer
    else .panic
  else .outOfRange

/-- The check of `arm64_mmu_map` and `arm64_mmu_unmap` that the range is not in the space. -/
def Aspace.OutOfSpace (vaddr size : ℕ) : Prop :=
  sub64 (2 ^ A.topSizeShift) size < sub64 vaddr A.vaddrBase ∨ 2 ^ A.topSizeShift < size

instance (vaddr size : ℕ) : Decidable (A.OutOfSpace vaddr size) :=
  inferInstanceAs (Decidable (_ ∨ _))

/-- `arm64_mmu_map`. -/
def arm64MmuMap (s : Tables) (vaddr paddr size attrs : ℕ) : Option (Tables × MmuRet) :=
  if A.OutOfSpace vaddr size then some (s, .errInvalidArgs)
  else arm64MmuMapPt A.pageSizeShift attrs A.topLevel s (sub64 vaddr A.vaddrBase) paddr size
    A.ttVirt

/-- `arm64_mmu_unmap`. -/
def arm64MmuUnmap (s : Tables) (vaddr size : ℕ) : Tables × MmuRet :=
  if A.OutOfSpace vaddr size then (s, .errInvalidArgs)
  else (arm64MmuUnmapPt A.pageSizeShift A.topLevel s (sub64 vaddr A.vaddrBase) size A.ttVirt, .ok)

end Arm64
end LittleKernel
