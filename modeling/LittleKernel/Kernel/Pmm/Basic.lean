/-
# The physical page allocator

`kernel/vm/pmm.c`: `vm_page_to_paddr`, `paddr_to_vm_page`, `pmm_add_arena`,
`pmm_alloc_pages`, `pmm_alloc_range`, `pmm_free`, `pmm_free_page`, `pmm_alloc_contiguous`,
`pmm_alloc_kpages`, `pmm_free_kpages`, and `boot_alloc_mem` of `kernel/vm/bootalloc.c`,
as they are on arm64: physical addresses have 64 bits and pages 4 KiB.

An arena is known by the address of its `pmm_arena_t`, a page by the address of its
`vm_page_t`; both are natural numbers.  `vaddr_to_paddr` and `paddr_to_kvaddr` depend on
the mappings and are the parameter `Env`.  Every call holds `lock` from its first access
to its last, so calls are steps.  A list of pages that a caller owns is not the
allocator's: what a call appends to it is part of what the call returns.

The search of `pmm_alloc_contiguous` keeps its position in a 32-bit `start`, which the
alignment may take back to where it was; a search that has visited `2 ^ 32` positions
without an end has no end, and the call does not return.  Nor has a search a result here
that reads behind the page array of its arena.
-/

import LittleKernel.Lib.Machine
import LittleKernel.Lib.Word

namespace LittleKernel
namespace Pmm

open Word

/-- `PAGE_SIZE_SHIFT`. -/
def pageSizeShift : ℕ := 12

/-- `PAGE_SIZE`. -/
def pageSize : ℕ := 4096

/-- `sizeof(vm_page_t)`. -/
def sizeofVmPage : ℕ := 24

/-- `pmm_arena_t`; `kmap` is `PMM_ARENA_FLAG_KMAP` of its flags. -/
structure Arena where
  kmap : Bool
  priority : ℕ
  base : ℕ
  size : ℕ
  freeCount : ℤ
  pageArray : ℕ
  freeList : List ℕ
  deriving DecidableEq

/-- The arenas that were added, in the order of `arena_list`, the pages with
`VM_PAGE_FLAG_NONFREE`, and the end of the boot time allocations. -/
structure State where
  arenaList : List ℕ
  arena : ℕ → Arena
  nonfree : ℕ → Bool
  bootAllocEnd : ℕ

/-- What the allocator reads of the mappings. -/
structure Env where
  vaddrToPaddr : ℕ → ℕ
  paddrToKvaddr : ℕ → ℕ

/-- Before the first arena is added. -/
def initial (bootAllocEnd : ℕ) : State where
  arenaList := []
  arena := fun _ => ⟨false, 0, 0, 0, 0, 0, []⟩
  nonfree := fun _ => false
  bootAllocEnd := bootAllocEnd

namespace Arena

/-- `a->size / PAGE_SIZE`. -/
def pageCount (a : Arena) : ℕ := a.size / pageSize

/-- `&a->page_array[i]`. -/
def page (a : Arena) (i : ℕ) : ℕ := a.pageArray + i * sizeofVmPage

/-- `PAGE_BELONGS_TO_ARENA`. -/
def belongs (a : Arena) (page : ℕ) : Prop :=
  a.pageArray ≤ page ∧ page < a.pageArray + a.pageCount * sizeofVmPage

instance (a : Arena) (page : ℕ) : Decidable (a.belongs page) := inferInstanceAs (Decidable (_ ∧ _))

/-- `PAGE_ADDRESS_FROM_ARENA`. -/
def pageAddress (a : Arena) (page : ℕ) : ℕ :=
  u64 ((page - a.pageArray) / sizeofVmPage * pageSize + a.base)

/-- `ADDRESS_IN_ARENA`. -/
def addressIn (a : Arena) (address : ℕ) : Prop :=
  a.base ≤ address ∧ address ≤ lastW 64 a.base a.size

instance (a : Arena) (address : ℕ) : Decidable (a.addressIn address) :=
  inferInstanceAs (Decidable (_ ∧ _))

/-- The page of an address in the arena. -/
def pageAt (a : Arena) (address : ℕ) : ℕ := a.page ((address - a.base) / pageSize)

end Arena

/-- `vm_page_to_paddr`. -/
def vmPageToPaddr (s : State) (page : ℕ) : ℕ :=
  match s.arenaList.find? fun a => (s.arena a).belongs page with
  | some a => (s.arena a).pageAddress page
  | none => 2 ^ 64 - 1

/-- `paddr_to_vm_page`. -/
def paddrToVmPage (s : State) (addr : ℕ) : Option ℕ :=
  (s.arenaList.find? fun a => (s.arena a).addressIn addr).map fun a => (s.arena a).pageAt addr

/-! ### Arenas -/

/-- `ALIGN(n, 8)`. -/
def align8 (n : ℕ) : ℕ := (n + 7) / 8 * 8

/-- The walk of `pmm_add_arena`: before the first arena of greater priority, else at the
end. -/
def insertArena (s : State) (arena priority : ℕ) : List ℕ → List ℕ
  | [] => [arena]
  | a :: as =>
    if priority < (s.arena a).priority then arena :: a :: as
    else a :: insertArena s arena priority as

/-- What the caller fills in before `pmm_add_arena`. -/
structure ArenaInfo where
  kmap : Bool
  priority : ℕ
  base : ℕ
  size : ℕ
  deriving DecidableEq

/-- The arena as `pmm_add_arena` leaves it, its array at `pageArray`. -/
def ArenaInfo.added (i : ArenaInfo) (pageArray : ℕ) : Arena where
  kmap := i.kmap
  priority := i.priority
  base := i.base
  size := i.size
  freeCount := (i.size / pageSize : ℕ)
  pageArray := pageArray
  freeList := (List.range (i.size / pageSize)).map fun k => pageArray + k * sizeofVmPage

/-- `pmm_add_arena`. -/
def pmmAddArena (s : State) (arena : ℕ) (i : ArenaInfo) : State :=
  -- boot_alloc_mem
  let ptr := align8 s.bootAllocEnd
  let a := i.added ptr
  { arenaList := insertArena s arena i.priority s.arenaList
    arena := fun b => if b = arena then a else s.arena b
    nonfree := fun p => if a.belongs p then false else s.nonfree p
    bootAllocEnd := ptr + align8 (i.size / pageSize * sizeofVmPage) }

/-! ### Allocation -/

/-- One page leaves the allocator: `list_delete`, `VM_PAGE_FLAG_NONFREE`, and the count of
the arena that is walked. -/
def State.handOut (s : State) (a p : ℕ) : State :=
  { s with
    arena := fun b =>
      { s.arena b with
        freeList := (s.arena b).freeList.erase p
        freeCount := (s.arena b).freeCount - if b = a then 1 else 0 }
    nonfree := fun q => if q = p then true else s.nonfree q }

/-- `list_remove_head_type` on the free list of `a`, and what `pmm_alloc_pages` does with
the page. -/
def State.removeHead (s : State) (a p : ℕ) : State :=
  { s with
    arena := fun b =>
      if b = a then
        { s.arena a with
          freeList := (s.arena a).freeList.tail, freeCount := (s.arena a).freeCount - 1 }
      else s.arena b
    nonfree := fun q => if q = p then true else s.nonfree q }

/-- The inner loop of `pmm_alloc_pages` with `n` pages to go; the flag is `goto done`. -/
def allocPagesArena (a : ℕ) : ℕ → State → State × List ℕ × Bool
  | 0, s => (s, [], false)
  | n + 1, s =>
    match (s.arena a).freeList with
    | [] => (s, [], true)
    | p :: _ =>
      let r := allocPagesArena a n (s.removeHead a p)
      (r.1, p :: r.2.1, r.2.2)

/-- The walk of `pmm_alloc_pages`. -/
def allocPagesWalk : List ℕ → ℕ → State → State × List ℕ
  | [], _, s => (s, [])
  | a :: as, n, s =>
    let r := allocPagesArena a n s
    if r.2.2 then (r.1, r.2.1)
    else
      let q := allocPagesWalk as (n - r.2.1.length) r.1
      (q.1, r.2.1 ++ q.2)

/-- `pmm_alloc_pages`: the pages appended to `list`. -/
def pmmAllocPages (s : State) (count : ℕ) : State × List ℕ :=
  if count = 0 then (s, []) else allocPagesWalk s.arenaList count s

/-- The inner loop of `pmm_alloc_range` with `n` pages to go. -/
def allocRangeArena (a : ℕ) : ℕ → ℕ → State → State × List ℕ × ℕ
  | 0, address, s => (s, [], address)
  | n + 1, address, s =>
    if (s.arena a).addressIn address then
      let p := (s.arena a).pageAt address
      if s.nonfree p then (s, [], address)
      else
        let r := allocRangeArena a n (u64 (address + pageSize)) (s.handOut a p)
        (r.1, p :: r.2.1, r.2.2)
    else (s, [], address)

/-- The walk of `pmm_alloc_range`. -/
def allocRangeWalk : List ℕ → ℕ → ℕ → State → State × List ℕ
  | [], _, _, s => (s, [])
  | a :: as, n, address, s =>
    let r := allocRangeArena a n address s
    if r.2.1.length = n then (r.1, r.2.1)
    else
      let q := allocRangeWalk as (n - r.2.1.length) r.2.2 r.1
      (q.1, r.2.1 ++ q.2)

/-- `pmm_alloc_range`: the pages appended to `list`. -/
def pmmAllocRange (s : State) (address count : ℕ) : State × List ℕ :=
  if count = 0 then (s, [])
  else allocRangeWalk s.arenaList count (address / pageSize * pageSize) s

/-! ### Contiguous runs -/

/-- `1UL << n`; the shift instruction takes `n` modulo 64. -/
def shl1 (n : ℕ) : ℕ := 2 ^ (n % 64)

/-- `ROUNDUP(n, 1UL << k)`. -/
def roundup (n k : ℕ) : ℕ := u64 (n + (shl1 k - 1)) / shl1 k * shl1 k

/-- The first page from `start` on, among `count`, that is not free. -/
def firstNonfree (s : State) (a : Arena) (start count : ℕ) : Option ℕ :=
  (List.range count).find? fun i => s.nonfree (a.page (start + i))

/-- The search in one arena from `start` on; the outer `none` is a search without end, or one
that leaves the page array because `start + count` wraps. -/
def searchRun (s : State) (a : Arena) (count alignmentLog2 alignedOffset : ℕ) :
    ℕ → ℕ → Option (Option ℕ)
  | 0, _ => none
  | fuel + 1, start =>
    if start < a.pageCount ∧ u32 (start + count) ≤ a.pageCount then
      match firstNonfree s a start (min count (a.pageCount - start)) with
      | some i =>
        -- this run is broken, start over at the next alignment boundary
        searchRun s a count alignmentLog2 alignedOffset fuel
          (u32 (roundup (u32 (sub32 start alignedOffset + i + 1))
            (alignmentLog2 - pageSizeShift) + alignedOffset))
      | none => if a.pageCount < start + count then none else some (some start)
    else some none

/-- Where the search in an arena finds a run. -/
def findRun (s : State) (a : Arena) (count alignmentLog2 : ℕ) : Option (Option ℕ) :=
  if a.kmap then
    let roundedBase := roundup a.base alignmentLog2
    if roundedBase < a.base ∨ lastW 64 a.base a.size < roundedBase then some none
    else
      let alignedOffset := u32 ((roundedBase - a.base) / pageSize)
      searchRun s a count alignmentLog2 alignedOffset (2 ^ 32) alignedOffset
  else some none

/-- What `pmm_alloc_contiguous` returns: the pages of the run, which it also appends to
`list` when there is one, and the address stored in `*pa`. -/
structure Run where
  pages : List ℕ
  pa : ℕ
  deriving DecidableEq

/-- The walk of `pmm_alloc_contiguous`: the arena and the index of the first run found. -/
def contiguousWalk (s : State) (count alignmentLog2 : ℕ) : List ℕ → Option (Option (ℕ × ℕ))
  | [] => some none
  | a :: as =>
    (findRun s (s.arena a) count alignmentLog2).bind fun
      | some start => some (some (a, start))
      | none => contiguousWalk s count alignmentLog2 as

/-- The pages of the run at `start`. -/
def Arena.run (a : Arena) (start count : ℕ) : List ℕ :=
  (List.range count).map fun i => a.page (start + i)

/-- `pmm_alloc_contiguous`; `none` when it does not return. -/
def pmmAllocContiguous (s : State) (count alignmentLog2 : ℕ) : Option (State × Option Run) :=
  if count = 0 then some (s, none)
  else
    (contiguousWalk s count (max alignmentLog2 pageSizeShift) s.arenaList).map fun
      | none => (s, none)
      | some (a, start) =>
        -- i < start + count is a comparison of 32-bit numbers
        let pages := (s.arena a).run start (u32 (start + count) - start)
        (pages.foldl (fun s p => s.handOut a p) s,
          some ⟨pages, u64 ((s.arena a).base + start * pageSize)⟩)

/-! ### Freeing -/

/-- One page comes back to arena `a`. -/
def State.takeBack (s : State) (a p : ℕ) : State :=
  { s with
    arena := fun b =>
      if b = a then
        { s.arena a with
          freeList := p :: (s.arena a).freeList, freeCount := (s.arena a).freeCount + 1 }
      else s.arena b
    nonfree := fun q => if q = p then false else s.nonfree q }

/-- The loop of `pmm_free`: the state and `count`. -/
def pmmFree : List ℕ → State → State × ℕ
  | [], s => (s, 0)
  | p :: ps, s =>
    match s.arenaList.find? fun a => (s.arena a).belongs p with
    | some a =>
      let r := pmmFree ps (s.takeBack a p)
      (r.1, u32 (r.2 + 1))
    | none => pmmFree ps s

/-- `pmm_free_page`. -/
def pmmFreePage (p : ℕ) (s : State) : State × ℕ := pmmFree [p] s

/-- The pages `pmm_free_kpages` collects. -/
def kpages (env : Env) (s : State) (ptr count : ℕ) : List ℕ :=
  (List.range count).filterMap fun i => paddrToVmPage s (env.vaddrToPaddr (u64 (ptr + i * pageSize)))

/-- `pmm_free_kpages`. -/
def pmmFreeKpages (env : Env) (ptr count : ℕ) (s : State) : State × ℕ :=
  pmmFree (kpages env s ptr count) s

/-- `pmm_alloc_kpages`: the run and the pointer to it. -/
def pmmAllocKpages (env : Env) (s : State) (count : ℕ) : Option (State × Option (Run × ℕ)) :=
  (pmmAllocContiguous s count pageSizeShift).map fun r =>
    (r.1, r.2.map fun run => (run, env.paddrToKvaddr run.pa))

end Pmm
end LittleKernel
