/-
# The mini heap

`lib/heap/miniheap/miniheap.c`: `heap_create_free_chunk`, `heap_insert_free_chunk`,
`heap_grow`, `miniheap_alloc`, `miniheap_free`, `miniheap_trim` and `miniheap_init`, as they
are on a machine with 64-bit pointers.

Memory is a function from addresses to 64-bit words.  The `len` of a `struct
free_heap_chunk` at `chunk` is at `chunk + 16`; the two words before it are the links of the
free list, which is here the list of its chunks in order.  A `struct alloc_struct_begin`
ends where the payload starts: `size` is at `ptr - 8`, `ptr` at `ptr - 16`, and in a debug
build `magic` at `ptr - 24`.  `NULL` is 0.  A chunk ends at or below `2 ^ 64`, so pointers
into it and parts of its length do not wrap; the sizes that come from callers and
`theheap.remaining` are computed modulo `2 ^ 64`.

`page_alloc` and `page_free` are the system's.  The answer of `page_alloc` is an input of the
call that asks for pages, an answer that is not a fresh range counting as a refusal, and
`held` is the ledger of the ranges the heap holds.

A call that does not come back is `none`: a `DEBUG_ASSERT` that fails, or the list head taken
for a chunk.  `DEBUG_HEAP` and `MINIHEAP_AUTOTRIM` are 0.  Every access to the list is under
`theheap.lock`, and a call that is made alone never waits for it.
-/

import LittleKernel.Lib.Machine
import LittleKernel.Lib.Ranges
import LittleKernel.Lib.Word

namespace LittleKernel
namespace Miniheap

open Word

/-- `LK_DEBUGLEVEL > 1`, and `&theheap.free_list`, which is not the start of `theheap`. -/
structure Config where
  debug : Bool
  listHead : ℕ

/-- `theheap`, the memory it works on, the answer of `page_alloc` and the ledger. -/
structure Heap where
  mem : ℕ → ℕ
  base : ℕ
  len : ℕ
  remaining : ℕ
  lowWatermark : ℕ
  freeList : List ℕ
  answer : Option ℕ
  held : List (ℕ × ℕ)

/-- `PAGE_SIZE`. -/
def pageSize : ℕ := 4096

/-- `sizeof(struct free_heap_chunk)`. -/
def sizeofFreeHeapChunk : ℕ := 24

/-- `sizeof(struct alloc_struct_begin)`. -/
def Config.sizeofAllocStructBegin (c : Config) : ℕ := if c.debug then 24 else 16

/-- `HEAP_MAGIC`. -/
def heapMagic : ℕ := 0x48454150

/-- `ERR_NO_MEMORY`. -/
def errNoMemory : ℤ := -5

/-- `ROUNDUP(a, b)` for a power of two `b`. -/
def roundup (a b : ℕ) : ℕ := (a + (b - 1)) / b * b

/-- `ROUNDDOWN(a, b)` for a power of two `b`. -/
def rounddown (a b : ℕ) : ℕ := a / b * b

/-- `DEBUG_ASSERT`. -/
def debugAssert (c : Config) (p : Prop) [Decidable p] : Option Unit :=
  if c.debug ∧ ¬p then none else some ()

namespace Heap

/-- One word written. -/
def store (a v : ℕ) (s : Heap) : Heap := { s with mem := Function.update s.mem a v }

/-- `chunk->len`. -/
def chunkLen (chunk : ℕ) (s : Heap) : ℕ := s.mem (chunk + 16)

/-- `chunk->len = len`. -/
def setChunkLen (chunk len : ℕ) (s : Heap) : Heap := s.store (chunk + 16) len

end Heap

/-! ### The free list -/

/-- `heap_create_free_chunk`; the chunk is at `ptr`. -/
def heapCreateFreeChunk (c : Config) (ptr len : ℕ) (s : Heap) : Option Heap := do
  debugAssert c (len % 8 = 0)
  some (s.setChunkLen ptr len)

/-- The merge with the previous chunk, the last of the chunks `before`: the chunks before the
result, and the result. -/
def mergeLast (before : List ℕ) (chunk : ℕ) (s : Heap) : List ℕ × ℕ × Heap :=
  match before.getLast? with
  | some last =>
    if last + s.chunkLen last = chunk then
      (before.dropLast, last, s.setChunkLen last (s.chunkLen last + s.chunkLen chunk))
    else (before, chunk, s)
  | none => (before, chunk, s)

/-- The merge with the next chunk, the first of the chunks `after`: the chunks from the
result on.  Behind the last chunk `next_chunk` is not `NULL` but the list head. -/
def mergeNext (c : Config) (after : List ℕ) (chunk : ℕ) (s : Heap) : Option (List ℕ × Heap) :=
  match after with
  | next :: rest =>
    if chunk + s.chunkLen chunk = next then
      some (chunk :: rest, s.setChunkLen chunk (s.chunkLen chunk + s.chunkLen next))
    else some (chunk :: next :: rest, s)
  | [] => if chunk + s.chunkLen chunk = c.listHead then none else some ([chunk], s)

/-- `heap_insert_free_chunk`. -/
def heapInsertFreeChunk (c : Config) (chunk : ℕ) (s : Heap) : Option (ℕ × Heap) := do
  let s := { s with remaining := u64 (s.remaining + s.chunkLen chunk) }
  -- walk through the list, finding the node to insert before
  let before := s.freeList.takeWhile (· ≤ chunk)
  let after := s.freeList.dropWhile (· ≤ chunk)
  debugAssert c (∀ next ∈ after.head?, chunk + s.chunkLen chunk ≤ next)
  let (before, chunk, s) := mergeLast before chunk s
  let (after, s) ← mergeNext c after chunk s
  some (chunk, { s with freeList := before ++ after })

/-! ### Pages -/

/-- The range `[p, p + n)` is made of pages and meets neither a range the heap holds nor
`theheap`, of which the byte before the list head is a part. -/
def Heap.Fresh (c : Config) (p n : ℕ) (s : Heap) : Prop :=
  0 < n ∧ 0 < p ∧ p % pageSize = 0 ∧ p + n ≤ 2 ^ 64 ∧ (p + n < c.listHead ∨ c.listHead ≤ p) ∧
    ∀ q ∈ s.held, Ranges.Apart (p, n) q

instance (c : Config) (p n : ℕ) (s : Heap) : Decidable (s.Fresh c p n) :=
  inferInstanceAs (Decidable (_ ∧ _ ∧ _ ∧ _ ∧ _ ∧ ∀ q ∈ s.held, _ ∨ _))

/-- `page_alloc`: `0` when it is refused. -/
def pageAlloc (c : Config) (pages : ℕ) (s : Heap) : ℕ × Heap :=
  match s.answer with
  | some p =>
    if s.Fresh c p (pages * pageSize) then
      (p, { s with answer := none, held := (p, pages * pageSize) :: s.held })
    else (0, { s with answer := none })
  | none => (0, s)

/-- `page_free`. -/
def pageFree (ptr pages : ℕ) (s : Heap) : Heap :=
  { s with held := s.held.flatMap (Ranges.cut ptr (pages * pageSize)) }

/-- `size_t` to `ssize_t`. -/
def toSigned (size : ℕ) : ℤ := if size < 2 ^ 63 then size else (size : ℤ) - 2 ^ 64

/-- `heap_grow`. -/
def heapGrow (c : Config) (size : ℕ) (s : Heap) : Option (ℤ × Heap) :=
  let size := rounddown (u64 (size + (pageSize - 1))) pageSize
  let (ptr, s) := pageAlloc c (size / pageSize) s
  if ptr = 0 then some (errNoMemory, s)
  else do
    let s ← heapCreateFreeChunk c ptr size s
    let (_, s) ← heapInsertFreeChunk c ptr s
    let base := if ptr < s.base ∨ s.base = 0 then ptr else s.base
    let len := if u64 (base + s.len) < u64 (ptr + size) then sub64 (ptr + size) base else s.len
    some (toSigned size, { s with base := base, len := len })

/-! ### Allocation -/

/-- `size` as `miniheap_alloc` searches for it. -/
def allocSize (c : Config) (size alignment : ℕ) : ℕ :=
  let size := u64 (size + c.sizeofAllocStructBegin)
  let size := if size < sizeofFreeHeapChunk then sizeofFreeHeapChunk else size
  let size := rounddown (u64 (size + 7)) 8
  if 0 < alignment then u64 (size + max alignment 16) else size

/-- The walk of `miniheap_alloc`: the first chunk that is big enough. -/
def findChunk (c : Config) (size : ℕ) (s : Heap) : List ℕ → Option (Option ℕ)
  | [] => some none
  | chunk :: rest => do
      debugAssert c (s.chunkLen chunk % 8 = 0)
      if size ≤ s.chunkLen chunk then some (some chunk) else findChunk c size s rest

/-- The chunk leaves the list; what it has beyond `size` stays, if it can be a chunk. -/
def splitChunk (c : Config) (size chunk : ℕ) (s : Heap) : Option Heap :=
  let len := s.chunkLen chunk
  if u64 (size + sizeofFreeHeapChunk) < len then do
    let s ← heapCreateFreeChunk c (chunk + size) (len - size) s
    -- the new one where chunk used to be
    let s := { s with freeList := s.freeList.replace chunk (chunk + size) }
    some (s.setChunkLen chunk (len - (len - size)))
  else some { s with freeList := s.freeList.erase chunk }

/-- The fields of `struct alloc_struct_begin` before `ptr`. -/
def writeAllocStruct (c : Config) (ptr chunk size : ℕ) (s : Heap) : Heap :=
  let s := if c.debug then s.store (ptr - 24) heapMagic else s
  (s.store (ptr - 16) chunk).store (ptr - 8) size

/-- What `miniheap_alloc` does with the chunk it finds. -/
def allocChunk (c : Config) (size alignment chunk : ℕ) (s : Heap) : Option (ℕ × Heap) := do
  let s ← splitChunk c size chunk s
  debugAssert c (size ≤ s.chunkLen chunk)
  let size := s.chunkLen chunk
  let ptr := chunk + c.sizeofAllocStructBegin
  let ptr := if 0 < alignment then roundup ptr (max alignment 16) else ptr
  let s := writeAllocStruct c ptr chunk size s
  let remaining := sub64 s.remaining size
  some (ptr, { s with remaining := remaining, lowWatermark := min s.lowWatermark remaining })

/-- `miniheap_alloc` from `retry` to the release of the lock. -/
def allocTry (c : Config) (size alignment : ℕ) (s : Heap) : Option (ℕ × Heap) := do
  match ← findChunk c size s s.freeList with
  | some chunk => allocChunk c size alignment chunk s
  | none => some (0, s)

/-- `miniheap_alloc`; it may be refused once, and then tries again. -/
def miniheapAlloc (c : Config) (size alignment : ℕ) (s : Heap) : Option (ℕ × Heap) :=
  -- alignment must be power of 2
  if alignment &&& sub32 alignment 1 ≠ 0 then some (0, s)
  else do
    let size := allocSize c size alignment
    let (ptr, s) ← allocTry c size alignment s
    if ptr ≠ 0 then some (ptr, s)
    else do
      let (err, s) ← heapGrow c size s
      if 0 ≤ err then allocTry c size alignment s else some (0, s)

/-- `miniheap_free`. -/
def miniheapFree (c : Config) (ptr : ℕ) (s : Heap) : Option Heap :=
  if ptr = 0 then some s
  else do
    debugAssert c (s.mem (ptr - 24) = heapMagic)
    let chunk := s.mem (ptr - 16)
    let s ← heapCreateFreeChunk c chunk (s.mem (ptr - 8)) s
    let (_, s) ← heapInsertFreeChunk c chunk s
    some s

/-! ### Trimming -/

/-- `list_add_after`. -/
def insertAfter (entry new : ℕ) : List ℕ → List ℕ
  | [] => []
  | x :: xs => if x = entry then x :: new :: xs else x :: insertAfter entry new xs

/-- The pages of the chunk from `start` to `stop` that can go, from `retry` on: one page less
on a side where the rest would be too small to be a chunk.  The outer `none` is a search that
goes on after `fuel` retries. -/
def trimPages (start stop : ℕ) : ℕ → ℕ → ℕ → Option (Option (ℕ × ℕ))
  | 0, _, _ => none
  | fuel + 1, startPage, endPage =>
    if startPage < endPage then
      if startPage ≠ start ∧ startPage - start < sizeofFreeHeapChunk then
        trimPages start stop fuel (startPage + pageSize) endPage
      else if endPage < stop ∧ stop - endPage < sizeofFreeHeapChunk then
        trimPages start stop fuel startPage (endPage - pageSize)
      else some (some (startPage, endPage))
    else some none

/-- The list without the pages `[startPage, endPage)` of the chunk, which ends at `stop`. -/
def cutChunk (c : Config) (chunk stop startPage endPage : ℕ) (s : Heap) : Option Heap :=
  -- free chunk completely covers page(s)
  if startPage = chunk ∧ endPage = stop then some { s with freeList := s.freeList.erase chunk }
  else do
    let s ←
      if endPage < stop then do
        let s := s.setChunkLen chunk (s.chunkLen chunk - (stop - endPage))
        let s ← heapCreateFreeChunk c endPage (stop - endPage) s
        some { s with freeList := insertAfter chunk endPage s.freeList }
      else some s
    let stop := if endPage < stop then endPage else stop
    if startPage = chunk ∧ endPage = stop then some { s with freeList := s.freeList.erase chunk }
    else some (s.setChunkLen chunk (s.chunkLen chunk - (endPage - startPage)))

/-- One turn of the loop of `miniheap_trim`. -/
def trimChunk (c : Config) (chunk : ℕ) (s : Heap) : Option Heap := do
  let stop := chunk + s.chunkLen chunk
  debugAssert c (chunk < stop)
  let startPage := roundup chunk pageSize
  let endPage := rounddown stop pageSize
  debugAssert c (endPage ≤ stop)
  debugAssert c (chunk ≤ startPage)
  match ← trimPages chunk stop 3 startPage endPage with
  | none => some s
  | some (startPage, endPage) => do
      let s ← cutChunk c chunk stop startPage endPage s
      let s := pageFree startPage ((endPage - startPage) / pageSize) s
      some { s with remaining := sub64 s.remaining (endPage - startPage) }

/-- The loop of `miniheap_trim` over the rest of the list: the successor of a chunk is taken
before the chunk is looked at. -/
def trimWalk (c : Config) : List ℕ → Heap → Option Heap
  | [], s => some s
  | chunk :: rest, s => (trimChunk c chunk s).bind (trimWalk c rest)

/-- `miniheap_trim`. -/
def miniheapTrim (c : Config) (s : Heap) : Option Heap := trimWalk c s.freeList s

/-- `miniheap_init`. -/
def miniheapInit (c : Config) (mem : ℕ → ℕ) (ptr len : ℕ) : Option Heap :=
  let s : Heap := ⟨mem, ptr, len, 0, 0, [], none, if 0 < len then [(ptr, len)] else []⟩
  if 0 < len then do
    let s ← heapCreateFreeChunk c ptr len s
    let (_, s) ← heapInsertFreeChunk c ptr s
    some s
  else some s

end Miniheap
end LittleKernel
