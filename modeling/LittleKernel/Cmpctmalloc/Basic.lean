/-
# The compact heap

`lib/heap/cmpctmalloc/cmpctmalloc.c`: `cmpct_init`, `cmpct_alloc`, `cmpct_free`,
`cmpct_memalign`, `cmpct_realloc`, `cmpct_trim` and all they call.

Memory is a function from addresses to 64-bit words.  A `header_t` at `h` has
`left` at `h` and `size` at `h + 8`; a `free_t` has `next` at `h + 16` and `prev`
at `h + 24`.  `NULL` is 0.  Pointers into the heap do not wrap, since a region
ends below `2 ^ 64`; the sizes, which come from callers and from headers, are
computed modulo `2 ^ 64`.

`page_alloc` and `page_free` are the system's.  The answers of `page_alloc` are an
input of the call that asks for pages, an answer that is not a fresh range
counting as a refusal, and `held` is the ledger of the ranges the heap still
holds.  `live` is the ledger of the callers: the blocks returned and not yet freed.

A call that does not come back is `none`: `lock` on a mutex that is held, the
`ASSERT` of `unlink_free`, an index outside `free_lists`, an access through the
`NULL` of a refused allocation.  `DEBUG_ASSERT` is not compiled in, nor is the
filling of `CMPCT_DEBUG`.
-/

import LittleKernel.Lib.Ranges
import LittleKernel.Cmpctmalloc.Buckets

namespace LittleKernel
namespace Cmpct

open Word

/-- `HEAP_GROW_SIZE` with what `STATIC_ASSERT` says of it. -/
structure Config where
  heapGrowSize : ℕ
  pos : 0 < heapGrowSize
  pageAligned : heapGrowSize % 4096 = 0
  le : heapGrowSize ≤ 2 ^ 22

/-- `theheap`, the memory it works on, and the two ledgers. -/
structure Heap where
  mem : ℕ → ℕ
  size : ℕ
  remaining : ℕ
  locked : Bool
  freeLists : ℕ → ℕ
  freeListBits : Bits
  answers : List (Option ℕ)
  held : List (ℕ × ℕ)
  live : List ℕ

namespace Heap

/-- One word written. -/
def store (a v : ℕ) (s : Heap) : Heap := { s with mem := Function.update s.mem a v }

/-- `lock()`. -/
def lock (s : Heap) : Option Heap := if s.locked then none else some { s with locked := true }

/-- `unlock()`. -/
def unlock (s : Heap) : Heap := { s with locked := false }

end Heap

section Headers

/-- `tag_as_free`. -/
def tagAsFree (left : ℕ) : ℕ := left / 2 * 2 + 1

/-- `untag`. -/
def untag (left : ℕ) : ℕ := left / 2 * 2

/-- `is_tagged_as_free`. -/
def isTaggedAsFree (header : ℕ) (s : Heap) : Bool := s.mem header % 2 = 1

/-- `right_header`. -/
def rightHeader (header : ℕ) (s : Heap) : ℕ := header + s.mem (header + 8)

/-- `is_start_of_os_allocation`. -/
def isStartOfOsAllocation (header : ℕ) (s : Heap) : Bool := s.mem header = 0

/-- `is_end_of_os_allocation`. -/
def isEndOfOsAllocation (address : ℕ) (s : Heap) : Bool := s.mem (address + 8) = 0

/-- `create_allocation_header`; it returns the address behind the header. -/
def createAllocationHeader (address offset size left : ℕ) (s : Heap) : Heap :=
  (s.store (address + offset) (untag left)).store (address + offset + 8) size

/-- `FixLeftPointer`. -/
def fixLeftPointer (right newLeft : ℕ) (s : Heap) : Heap :=
  s.store right (untag newLeft + s.mem right % 2)

end Headers

section Pages

/-- The range `[p, p + n)` is made of pages and meets no range the heap holds. -/
def Heap.Fresh (p n : ℕ) (s : Heap) : Prop :=
  0 < n ∧ 0 < p ∧ p % 4096 = 0 ∧ p + n < 2 ^ 64 ∧
    ∀ q ∈ s.held, p + n ≤ q.1 ∨ q.1 + q.2 ≤ p

instance (p n : ℕ) (s : Heap) : Decidable (s.Fresh p n) :=
  inferInstanceAs (Decidable (_ ∧ _ ∧ _ ∧ _ ∧ _))

/-- `page_alloc`: the next answer, `0` when it is a refusal. -/
def pageAlloc (pages : ℕ) (s : Heap) : ℕ × Heap :=
  match s.answers with
  | some p :: as =>
    if s.Fresh p (pages * 4096) then
      (p, { s with answers := as, held := (p, pages * 4096) :: s.held })
    else (0, { s with answers := as })
  | _ :: as => (0, { s with answers := as })
  | [] => (0, s)

/-- `page_free`. -/
def pageFree (ptr pages : ℕ) (s : Heap) : Heap :=
  { s with held := s.held.flatMap (Ranges.cut ptr (pages * 4096)) }

end Pages

section FreeLists

/-- The links that `create_free_area` writes, for an area in front of `oldHead`. -/
def linkFreeArea (address oldHead : ℕ) (s : Heap) : Heap :=
  let s := if oldHead ≠ 0 then s.store (oldHead + 24) address else s
  (s.store (address + 16) oldHead).store (address + 24) 0

/-- `create_free_area`.  `bucket` is `none` for `NULL`; else it is a variable of the
caller that holds the head of a list, here its value, and `*bucket` becomes `address`. -/
def createFreeArea (address left size : ℕ) (bucket : Option ℕ) (s : Heap) : Option Heap :=
  let s := (s.store (address + 8) size).store address (tagAsFree left)
  match bucket with
  | none => do
      let index ← bucketOf (sizeToIndexFreeing (sub64 size 16))
      let s := linkFreeArea address (s.freeLists index) s
      some { s with
        freeListBits := setFreeListBit s.freeListBits index
        freeLists := Function.update s.freeLists index address
        remaining := u64 (s.remaining + size) }
  | some oldHead =>
    let s := linkFreeArea address oldHead s
    some { s with remaining := u64 (s.remaining + size) }

/-- `free_to_os`. -/
def freeToOs (header size : ℕ) (s : Heap) : Heap :=
  let s := pageFree header (size / 4096) s
  { s with size := sub64 s.size size }

/-- `free_memory`. -/
def freeMemory (address left size : ℕ) (s : Heap) : Option Heap :=
  let left := untag left
  if left % 4096 = 0 ∧ isStartOfOsAllocation left s ∧ isEndOfOsAllocation (address + size) s then
    some (freeToOs left (u64 (size + s.mem (left + 8) + 16)) s)
  else createFreeArea address left size none s

/-- `unlink_free`. -/
def unlinkFree (freeArea bucket : ℕ) (s : Heap) : Option Heap :=
  let remaining := sub64 s.remaining (s.mem (freeArea + 8))
  if 4000000000 ≤ remaining then none
  else
    let next := s.mem (freeArea + 16)
    let prev := s.mem (freeArea + 24)
    let s := { s with remaining := remaining }
    let s :=
      if s.freeLists bucket = freeArea then
        { s with
          freeLists := Function.update s.freeLists bucket next
          freeListBits :=
            if next = 0 then clearFreeListBit s.freeListBits bucket else s.freeListBits }
      else s
    let s := if prev ≠ 0 then s.store (prev + 16) next else s
    some (if next ≠ 0 then s.store (next + 24) prev else s)

/-- `unlink_free_unknown_bucket`. -/
def unlinkFreeUnknownBucket (freeArea : ℕ) (s : Heap) : Option Heap := do
  let bucket ← bucketOf (sizeToIndexFreeing (sub64 (s.mem (freeArea + 8)) 16))
  unlinkFree freeArea bucket s

end FreeLists

section Grow

/-- `add_to_heap`. -/
def addToHeap (newArea size : ℕ) (bucket : Option ℕ) (s : Heap) : Option Heap := do
  let top := newArea + size
  let s := createAllocationHeader newArea 0 16 0 s
  let newHeader := newArea + 16
  let s ← createFreeArea newHeader newArea (sub64 size (2 * 16)) bucket s
  some (createAllocationHeader (top - 16) 0 0 newHeader s)

/-- The bytes `heap_grow` asks the system for. -/
def growSize (size : ℕ) : ℕ := roundup (u64 (size + 2 * 16)) 4096

/-- `heap_grow`: the range it adds, `0` when it fails.  With a `bucket` of its
caller's, `*bucket` becomes the area behind the left sentinel of that range. -/
def heapGrow (size : ℕ) (bucket : Option ℕ) (s : Heap) : Option (ℕ × Heap) :=
  let size := growSize size
  let (ptr, s) := pageAlloc (size / 4096) s
  if ptr = 0 then some (0, s)
  else do
    let s ← addToHeap ptr size bucket { s with size := u64 (s.size + size) }
    some (ptr, s)

/-- The loop of `cmpct_alloc` that asks for less and less; `growby` is halved in each
pass until it is `rounded_up`, so `fuel` passes are enough when `growby < 2 ^ fuel`. -/
def growLoop (roundedUp : ℕ) : ℕ → ℕ → Heap → Option (Bool × Heap)
  | 0, _, _ => none
  | fuel + 1, growby, s => do
      let (ptr, s) ← heapGrow growby none s
      if ptr ≠ 0 then some (true, s)
      else if growby ≤ roundedUp then some (false, s)
      else growLoop roundedUp fuel (max (growby / 2) roundedUp) s

/-- `large_alloc`.  When `heap_grow` fails it returns with the lock held. -/
def largeAlloc (size : ℕ) (s : Heap) : Option (ℕ × Heap) := do
  let size := roundup size 8
  let s ← s.lock
  let (ptr, s) ← heapGrow size (some 0) s
  if ptr = 0 then some (0, s)
  else
    let freeArea := ptr + 16
    let s := createAllocationHeader freeArea 0 (s.mem (freeArea + 8)) (s.mem freeArea) s
    let s := { s with remaining := sub64 s.remaining (s.mem (freeArea + 8)) }
    some (freeArea + 16, s.unlock)

end Grow

section Calls

/-- The end of `cmpct_alloc`: the head of the list is taken, and cut when what is left
over is large enough. -/
def allocFrom (size roundedUp bucket : ℕ) (s : Heap) : Option (ℕ × Heap) := do
  let head := s.freeLists bucket
  let leftOver := sub64 (s.mem (head + 8)) roundedUp
  let s ←
    if 32 ≤ leftOver ∧ size / 2 ^ 6 < leftOver then do
      let right := rightHeader head s
      let s ← unlinkFree head bucket s
      let free := head + roundedUp
      let s ← createFreeArea free head leftOver none s
      let s := fixLeftPointer right free s
      some (s.store (head + 8) (sub64 (s.mem (head + 8)) leftOver))
    else unlinkFree head bucket s
  let s := createAllocationHeader head 0 (s.mem (head + 8)) (s.mem head) s
  some (head + 16, s.unlock)

/-- `cmpct_alloc`. -/
def cmpctAlloc (c : Config) (size : ℕ) (s : Heap) : Option (ℕ × Heap) :=
  if size = 0 then some (0, s)
  else if 2 ^ 22 < u64 (size + 16) then largeAlloc size s
  else do
    let roundedUp := u64 ((sizeToIndexAllocating size).2 + 16)
    let s ← s.lock
    let startBucket ← bucketOf (sizeToIndexAllocating size).1
    match findNonemptyBucket s.freeListBits startBucket with
    | some bucket => allocFrom size roundedUp bucket s
    | none =>
      let growby := min (2 ^ 22) (max (s.size / 2 ^ 3) (max c.heapGrowSize roundedUp))
      let (grown, s) ← growLoop roundedUp 23 growby s
      if grown then do
        let bucket ← findNonemptyBucket s.freeListBits startBucket
        allocFrom size roundedUp bucket s
      else some (0, s.unlock)

/-- `cmpct_free` between `lock` and `unlock`. -/
def freeLocked (header : ℕ) (s : Heap) : Option Heap :=
  let size := s.mem (header + 8)
  let left := s.mem header
  if left ≠ 0 ∧ isTaggedAsFree left s then do
    let s ← unlinkFreeUnknownBucket left s
    let right := rightHeader header s
    if isTaggedAsFree right s then do
      let s ← unlinkFreeUnknownBucket right s
      let rightRight := rightHeader right s
      let s := fixLeftPointer rightRight left s
      freeMemory left (s.mem left) (u64 (s.mem (left + 8) + size + s.mem (right + 8))) s
    else
      let s := fixLeftPointer right left s
      freeMemory left (s.mem left) (u64 (s.mem (left + 8) + size)) s
  else
    let right := rightHeader header s
    if isTaggedAsFree right s then do
      let rightRight := rightHeader right s
      let s ← unlinkFreeUnknownBucket right s
      let s := fixLeftPointer rightRight header s
      freeMemory header left (u64 (size + s.mem (right + 8))) s
    else freeMemory header left size s

/-- `cmpct_free`. -/
def cmpctFree (payload : ℕ) (s : Heap) : Option Heap :=
  if payload = 0 then some s
  else do
    let s ← s.lock
    let s ← freeLocked (payload - 16) s
    some s.unlock

/-- `cmpct_memalign`. -/
def cmpctMemalign (c : Config) (size alignment : ℕ) (s : Heap) : Option (ℕ × Heap) :=
  if alignment < 8 then cmpctAlloc c size s
  else do
    let paddedSize := u64 (size + alignment + 32 + 16)
    let (unaligned, s) ← cmpctAlloc c paddedSize s
    if unaligned = 0 then none
    else
      let s ← s.lock
      let mask := alignment - 1
      let payloadInt := u64 (unaligned + 32 + 16 + mask)
      -- `payload_int & ~mask`
      let payload := payloadInt - (payloadInt &&& mask)
      if unaligned ≠ payload then do
        let unalignedHeader := unaligned - 16
        let header := payload - 16
        let leftOver := sub64 payload unaligned
        let s := createAllocationHeader header 0 (sub64 (s.mem (unalignedHeader + 8)) leftOver)
          unalignedHeader s
        let right := rightHeader unalignedHeader s
        let s := s.store (unalignedHeader + 8) leftOver
        let s := fixLeftPointer right header s
        let s ← cmpctFree unaligned s.unlock
        some (payload, s)
      else some (payload, s.unlock)

/-- `memcpy` of `n` bytes: of the word at `dst + 8 * i` the low `n - 8 * i` bytes, at
most 8, are those of the word at `src + 8 * i`. -/
def memcpy (dst src n : ℕ) (s : Heap) : Heap :=
  { s with
    mem := fun a =>
      if dst ≤ a ∧ a < dst + n ∧ (a - dst) % 8 = 0 then
        let w := 256 ^ min 8 (dst + n - a)
        s.mem (src + (a - dst)) % w + s.mem a / w * w
      else s.mem a }

/-- `cmpct_realloc`. -/
def cmpctRealloc (c : Config) (payload size : ℕ) (s : Heap) : Option (ℕ × Heap) :=
  if payload = 0 then cmpctAlloc c size s
  else do
    let header := payload - 16
    let oldSize := sub64 (s.mem (header + 8)) 16
    let (newPayload, s) ← cmpctAlloc c size s
    if newPayload = 0 ∧ min size oldSize ≠ 0 then none
    else
      let s ← cmpctFree payload (memcpy newPayload payload (min size oldSize) s)
      some (newPayload, s)

end Calls

section Trim

/-- The body of the loop of `cmpct_trim` where the area is the last of its region. -/
def trimEnd (bucket freeArea : ℕ) (s : Heap) : Option Heap :=
  let right := rightHeader freeArea s
  let oldOsAllocationEnd := roundup right 4096
  let newOsAllocationEnd := roundup (freeArea + 16 + 32) 4096
  let freedUp := sub64 oldOsAllocationEnd newOsAllocationEnd
  if freedUp = 0 then some s
  else do
    let s ← unlinkFree freeArea bucket s
    let newFreeSize := sub64 (s.mem (freeArea + 8)) freedUp
    let s := createAllocationHeader freeArea newFreeSize 0 freeArea s
    let s ← createFreeArea freeArea (untag (s.mem freeArea)) newFreeSize none s
    let s := pageFree newOsAllocationEnd (freedUp / 4096) s
    some { s with size := sub64 s.size freedUp }

/-- The body of the loop of `cmpct_trim` where the area is the first of its region. -/
def trimStart (bucket freeArea : ℕ) (s : Heap) : Option Heap :=
  let right := rightHeader freeArea s
  let oldOsAllocationStart := rounddown freeArea 4096
  let newOsAllocationStart := rounddown (right - 16) 4096
  let freedUp := sub64 newOsAllocationStart oldOsAllocationStart
  if freedUp = 0 then some s
  else do
    let s ← unlinkFree freeArea bucket s
    let newFreeSize := sub64 (s.mem (freeArea + 8)) freedUp
    let sentinelSize := if newFreeSize < 32 then 16 + newFreeSize else 16
    let newFreeSize := if newFreeSize < 32 then 0 else newFreeSize
    let s := createAllocationHeader newOsAllocationStart 0 sentinelSize 0 s
    let s ←
      if newFreeSize = 0 then some (fixLeftPointer right newOsAllocationStart s)
      else do
        let newFree := newOsAllocationStart + sentinelSize
        let s ← createFreeArea newFree newOsAllocationStart newFreeSize none s
        some (fixLeftPointer right newFree s)
    let s := pageFree oldOsAllocationStart (freedUp / 4096) s
    some { s with size := sub64 s.size freedUp }

/-- The body of the inner loop of `cmpct_trim`. -/
def trimArea (bucket freeArea : ℕ) (s : Heap) : Option Heap :=
  if isEndOfOsAllocation (rightHeader freeArea s) s then trimEnd bucket freeArea s
  else if isStartOfOsAllocation (untag (s.mem freeArea)) s then trimStart bucket freeArea s
  else some s

/-- The inner loop of `cmpct_trim`, which reads `next` before it works on an area. -/
def trimBucket (bucket : ℕ) : ℕ → ℕ → Heap → Option Heap
  | fuel, freeArea, s =>
    if freeArea = 0 then some s
    else
      match fuel with
      | 0 => none
      | fuel + 1 => do
          let next := s.mem (freeArea + 16)
          let s ← trimArea bucket freeArea s
          trimBucket bucket fuel next s

/-- The buckets `cmpct_trim` looks at, from `size_to_index_freeing(PAGE_SIZE)` on. -/
def trimBuckets : List ℕ :=
  (List.range numberOfBuckets).drop (sizeToIndexFreeing 4096).toNat

/-- `cmpct_trim`.  A free area has at least 32 bytes, so the areas on one list are
fewer than the bytes of the heap. -/
def cmpctTrim (s : Heap) : Option Heap := do
  let s ← s.lock
  let s ← trimBuckets.foldlM (fun s bucket => trimBucket bucket s.size (s.freeLists bucket) s) s
  some s.unlock

end Trim

section Machine

/-- A call with its arguments and what `page_alloc` answers in it, or a word that
another part of the system writes. -/
inductive Op
  | alloc (size : ℕ) (answers : List (Option ℕ))
  | free (payload : ℕ)
  | memalign (size alignment : ℕ) (answers : List (Option ℕ))
  | realloc (payload size : ℕ) (answers : List (Option ℕ))
  | trim
  | store (a v : ℕ)
  deriving DecidableEq

/-- The word at `a` is in a block that a caller holds, or in no page of the heap. -/
def Heap.Writable (a : ℕ) (s : Heap) : Prop :=
  a % 8 = 0 ∧ ((∃ p ∈ s.live, p ≤ a ∧ a + 8 ≤ p - 16 + s.mem (p - 16 + 8)) ∨
    ∀ q ∈ s.held, a + 8 ≤ q.1 ∨ q.1 + q.2 ≤ a)

instance (a : ℕ) (s : Heap) : Decidable (s.Writable a) :=
  inferInstanceAs (Decidable (_ ∧ _))

/-- The block that a call returns is live, unless it is `NULL`. -/
def returned (r : ℕ × Heap) : Heap :=
  if r.1 = 0 then r.2 else { r.2 with live := r.1 :: r.2.live }

/-- One call, its size arguments taken as `size_t`.  Only a live block, or `NULL`, is
freed or reallocated. -/
def step (c : Config) (s : Heap) : Op → Option Heap
  | .alloc size answers => (cmpctAlloc c (u64 size) { s with answers := answers }).map returned
  | .free payload =>
    if payload = 0 ∨ payload ∈ s.live then
      cmpctFree payload { s with live := s.live.erase payload }
    else none
  | .memalign size alignment answers =>
    (cmpctMemalign c (u64 size) (u64 alignment) { s with answers := answers }).map returned
  | .realloc payload size answers =>
    if payload = 0 ∨ payload ∈ s.live then
      (cmpctRealloc c payload (u64 size)
        { s with answers := answers, live := s.live.erase payload }).map returned
    else none
  | .trim => cmpctTrim s
  | .store a v => if s.Writable a then some (s.store a (u64 v)) else none

/-- `theheap` before `cmpct_init` asks for pages, with the memory as it is then and the
answers of `page_alloc`. -/
def Heap.initial (mem : ℕ → ℕ) (answers : List (Option ℕ)) : Heap where
  mem := mem
  size := 0
  remaining := 0
  locked := false
  freeLists := fun _ => 0
  freeListBits := fun _ => 0
  answers := answers
  held := []
  live := []

/-- `cmpct_init`. -/
def cmpctInit (c : Config) (mem : ℕ → ℕ) (answers : List (Option ℕ)) : Option Heap :=
  (heapGrow (c.heapGrowSize - 2 * 16) none (.initial mem answers)).map Prod.snd

end Machine

end Cmpct
end LittleKernel
