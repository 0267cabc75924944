/-
# The block cache

`lib/bcache/bcache.c` over a device whose reads and writes inside the device
succeed in full.  An entry is its index in `cache->blocks`; a block is a value of
any type `α` with a zero, since every transfer is of whole blocks.  The hit and
miss counters are left out.

A caller changes a block through the pointer of `bcache_get_block`, which is not a
call of the cache: the action `poke`, open to whoever holds a reference.  What the
cache then owes the caller is what `Op.Ok` asks of the caller first: blocks are put
by those who hold them and got while an entry is free or unreferenced (both are
assertions of the source), and a block that was changed is marked dirty before its
last reference goes.

`logical` reads the contents of the store off the cache and the device, and the
cache refines the store that holds just those (`bcache_refines`).
-/

import Mathlib.Algebra.GroupWithZero.Nat
import LittleKernel.Lib.Machine
import Mathlib.Data.List.Nodup
import Mathlib.Data.List.Perm.Basic
import Mathlib.Data.List.Range

namespace LittleKernel
namespace Bcache

open Machine Function

variable {α : Type}

/-- `struct bcache` with its `struct bcache_block`s, and the device. -/
structure Cache (α : Type) where
  freeList : List ℕ
  lruList : List ℕ
  blocknum : ℕ → ℕ
  refCount : ℕ → ℕ
  isDirty : ℕ → Bool
  ptr : ℕ → α
  dev : ℕ → α

/-- `bcache_create`: the entries are put in front of the free list one by one.  Block
numbers and contents start as they happen to be. -/
def bcacheCreate (count : ℕ) (blocknum : ℕ → ℕ) (ptr dev : ℕ → α) : Cache α where
  freeList := (List.range count).reverse
  lruList := []
  blocknum := blocknum
  refCount := fun _ => 0
  isDirty := fun _ => false
  ptr := ptr
  dev := dev

/-- `flush_block`. -/
def flushBlock (c : Cache α) (i : ℕ) : Cache α :=
  { c with
    dev := update c.dev (c.blocknum i) (c.ptr i)
    isDirty := update c.isDirty i false }

/-- `list_delete` and `list_add_tail` on the LRU list. -/
def moveToTail (c : Cache α) (i : ℕ) : Cache α :=
  { c with lruList := c.lruList.erase i ++ [i] }

/-- `find_block`. -/
def findBlock (c : Cache α) (blocknum : ℕ) : Option (ℕ × Cache α) :=
  (c.lruList.find? fun i => c.blocknum i = blocknum).map fun i => (i, moveToTail c i)

/-- `alloc_block`. -/
def allocBlock (c : Cache α) : Option (ℕ × Cache α) :=
  match c.freeList with
  | i :: l => some (i, { c with
      freeList := l
      lruList := c.lruList ++ [i]
      refCount := update c.refCount i 0 })
  | [] => (c.lruList.find? fun i => c.refCount i = 0).map fun i =>
    (i, moveToTail (if c.isDirty i then flushBlock c i else c) i)

/-- `find_or_fill_block`; `none` is the assertion that a block was found. -/
def findOrFillBlock (c : Cache α) (blocknum : ℕ) : Option (ℕ × Cache α) :=
  match findBlock c blocknum with
  | some r => some r
  | none => (allocBlock c).map fun (i, c) =>
    (i, { c with
      blocknum := update c.blocknum i blocknum
      ptr := update c.ptr i (c.dev blocknum) })

/-- What a call returns: the contents of a block, or its return value. -/
inductive Out (α : Type) where
  | data (v : α)
  | ret (r : ℤ)

inductive Op (α : Type) where
  | read (blocknum : ℕ)
  | get (blocknum : ℕ)
  | poke (blocknum : ℕ) (v : α)
  | put (blocknum : ℕ)
  | markDirty (blocknum : ℕ)
  | zero (blocknum : ℕ)
  | flush

/-- `bcache_flush`. -/
def bcacheFlush (c : Cache α) : Cache α :=
  c.lruList.foldl (fun c i => if c.isDirty i then flushBlock c i else c) c

/-- One call of the cache, or a write through a pointer to a block; `none` where
an assertion of the source fails or nobody has a pointer. -/
def bcacheStep [Zero α] (c : Cache α) : Op α → Option (Cache α × Out α)
  | .read b => (findOrFillBlock c b).map fun (i, c) => (c, .data (c.ptr i))
  | .get b => (findOrFillBlock c b).map fun (i, c) =>
    ({ c with refCount := update c.refCount i (c.refCount i + 1) }, .data (c.ptr i))
  | .poke b v =>
    match c.lruList.find? fun i => c.blocknum i = b with
    | none => none
    | some i =>
      if 0 < c.refCount i then some ({ c with ptr := update c.ptr i v }, .ret 0)
      else none
  | .put b =>
    match findBlock c b with
    | none => none
    | some (i, c) =>
      if 0 < c.refCount i then
        some ({ c with refCount := update c.refCount i (c.refCount i - 1) }, .ret 0)
      else none
  | .markDirty b =>
    match findBlock c b with
    | none => some (c, .ret (-1))
    | some (i, c) => some ({ c with isDirty := update c.isDirty i true }, .ret 0)
  | .zero b =>
    match findBlock c b with
    | some (i, c) => some ({ c with
        ptr := update c.ptr i 0
        isDirty := update c.isDirty i true }, .ret 0)
    | none =>
      match allocBlock c with
      | none => some (c, .ret (-1))
      | some (i, c) => some ({ c with
          blocknum := update c.blocknum i b
          ptr := update c.ptr i 0
          isDirty := update c.isDirty i true }, .ret 0)
  | .flush => some (bcacheFlush c, .ret 0)

/-! ### The store -/

/-- A store of blocks: a read returns what was written last, a zeroing that is
refused changes nothing, and nothing else is visible. -/
def StoreSpec [Zero α] (L : ℕ → α) : Op α → Out α → (ℕ → α) → Prop
  | .read b, o, L' => o = .data (L b) ∧ L' = L
  | .get b, o, L' => o = .data (L b) ∧ L' = L
  | .poke b v, _, L' => L' = update L b v
  | .put _, _, L' => L' = L
  | .markDirty _, _, L' => L' = L
  | .zero b, o, L' => o = .ret 0 ∧ L' = update L b 0 ∨ o = .ret (-1) ∧ L' = L
  | .flush, _, L' => L' = L

/-- The contents of the store: a cached block is what its entry holds, any other
block what the device holds. -/
def logical (c : Cache α) (b : ℕ) : α :=
  match c.lruList.find? fun i => c.blocknum i = b with
  | some i => c.ptr i
  | none => c.dev b

/-- What changed in `i` has been marked. -/
def Marked (c : Cache α) (i : ℕ) : Prop := c.isDirty i ∨ c.ptr i = c.dev (c.blocknum i)

/-- An entry can be had for another block. -/
def Available (c : Cache α) : Prop := c.freeList ≠ [] ∨ ∃ i ∈ c.lruList, c.refCount i = 0

def Cached (c : Cache α) (b i : ℕ) : Prop := i ∈ c.lruList ∧ c.blocknum i = b

/-- What a caller owes the cache. -/
def Op.Ok (c : Cache α) : Op α → Prop
  | .read b => (∃ i, Cached c b i) ∨ Available c
  | .get b => (∃ i, Cached c b i) ∨ Available c
  | .poke b _ => ∃ i, Cached c b i ∧ 0 < c.refCount i
  | .put b => ∃ i, Cached c b i ∧ 0 < c.refCount i ∧ (c.refCount i = 1 → Marked c i)
  | _ => True

/-- Each of the `n` entries is on one list, no block number is held twice, and what
nobody refers to can be dropped once it is written back if dirty. -/
structure Inv (n : ℕ) (c : Cache α) : Prop where
  lists : (c.freeList ++ c.lruList).Perm (List.range n)
  unique : ∀ i ∈ c.lruList, ∀ j ∈ c.lruList, c.blocknum i = c.blocknum j → i = j
  free_clean : ∀ i ∈ c.freeList, c.isDirty i = false
  unreferenced : ∀ i ∈ c.lruList, c.refCount i = 0 → Marked c i

variable {n : ℕ} {c c' : Cache α} {b i : ℕ}

theorem Inv.lru_nodup (h : Inv n c) : c.lruList.Nodup :=
  (List.nodup_append.1 (h.lists.nodup_iff.2 List.nodup_range)).2.1

/-- An entry is on one list only. -/
theorem Inv.free_not_lru (h : Inv n c) (hi : i ∈ c.freeList) : i ∉ c.lruList := fun hi' =>
  (List.nodup_append.1 (h.lists.nodup_iff.2 List.nodup_range)).2.2 i hi i hi' rfl

theorem find?_eq_none_iff_not_cached :
    (c.lruList.find? fun i => c.blocknum i = b) = none ↔ ∀ i, ¬ Cached c b i := by
  simp [List.find?_eq_none, Cached]

theorem Inv.find?_eq (h : Inv n c) (hc : Cached c b i) :
    (c.lruList.find? fun i => c.blocknum i = b) = some i := by
  cases hf : c.lruList.find? fun i => c.blocknum i = b with
  | none => exact absurd hc (find?_eq_none_iff_not_cached.1 hf i)
  | some j =>
    have hj : c.blocknum j = b := by simpa using List.find?_some hf
    rw [h.unique j (List.mem_of_find?_eq_some hf) i hc.1 (hj.trans hc.2.symm)]

theorem Inv.logical_of_cached (h : Inv n c) (hc : Cached c b i) : logical c b = c.ptr i := by
  rw [logical, h.find?_eq hc]

theorem logical_of_not_cached (hc : ∀ i, ¬ Cached c b i) : logical c b = c.dev b := by
  rw [logical, find?_eq_none_iff_not_cached.2 hc]

/-- Two caches that hold the same blocks with the same contents, over devices that
agree elsewhere, are the same store. -/
theorem Inv.logical_congr (h : Inv n c) (h' : Inv n c')
    (hc : ∀ b i, Cached c' b i ↔ Cached c b i) (hp : ∀ b i, Cached c b i → c'.ptr i = c.ptr i)
    (hd : ∀ b, (∀ i, ¬ Cached c b i) → c'.dev b = c.dev b) : logical c' = logical c := by
  funext b
  rcases em (∃ i, Cached c b i) with ⟨i, hi⟩ | hno
  · rw [h.logical_of_cached hi, h'.logical_of_cached ((hc b i).2 hi), hp b i hi]
  · have hno' : ∀ i, ¬ Cached c b i := fun i hi => hno ⟨i, hi⟩
    rw [logical_of_not_cached hno', logical_of_not_cached fun i hi => hno' i ((hc b i).1 hi),
      hd b hno']

/-! ### Looking up -/

theorem Inv.mem_moveToTail (h : Inv n c) (hi : i ∈ c.lruList) (j : ℕ) :
    j ∈ (moveToTail c i).lruList ↔ j ∈ c.lruList := by
  simp only [moveToTail, List.mem_append, List.mem_singleton, h.lru_nodup.mem_erase_iff]
  constructor
  · rintro (⟨-, hj⟩ | rfl)
    · exact hj
    · exact hi
  · intro hj
    rcases eq_or_ne j i with rfl | hne
    · exact .inr rfl
    · exact .inl ⟨hne, hj⟩

theorem Inv.moveToTail (h : Inv n c) (hi : i ∈ c.lruList) : Inv n (moveToTail c i) := by
  have hm := h.mem_moveToTail hi
  refine ⟨?_, fun j hj k hk => h.unique j ((hm j).1 hj) k ((hm k).1 hk), h.free_clean,
    fun j hj => h.unreferenced j ((hm j).1 hj)⟩
  refine List.Perm.trans (List.Perm.append_left _ ?_) h.lists
  exact List.perm_append_comm.trans (List.perm_cons_erase hi).symm

theorem Inv.logical_moveToTail (h : Inv n c) (hi : i ∈ c.lruList) :
    logical (Bcache.moveToTail c i) = logical c :=
  h.logical_congr (h.moveToTail hi) (fun _ j => and_congr_left' (h.mem_moveToTail hi j))
    (fun _ _ _ => rfl) fun _ _ => rfl

/-- `find_block` finds the one entry of a block, if there is one. -/
theorem Inv.findBlock_cases (h : Inv n c) (b : ℕ) :
    (∃ i, Cached c b i ∧ findBlock c b = some (i, Bcache.moveToTail c i)) ∨
      (∀ i, ¬ Cached c b i) ∧ findBlock c b = none := by
  rcases em (∃ i, Cached c b i) with ⟨i, hi⟩ | hno
  · exact .inl ⟨i, hi, by simp [findBlock, h.find?_eq hi]⟩
  · have hno' : ∀ i, ¬ Cached c b i := fun i hi => hno ⟨i, hi⟩
    exact .inr ⟨hno', by simp [findBlock, find?_eq_none_iff_not_cached.2 hno']⟩

/-! ### Taking an entry for another block -/

/-- What `alloc_block` leaves: entry `i` on the LRU list, unreferenced, clean and
written back if it was dirty. -/
structure Allocated (c c' : Cache α) (i : ℕ) : Prop where
  lists : (c'.freeList ++ c'.lruList).Perm (c.freeList ++ c.lruList)
  mem_lru : ∀ j, j ∈ c'.lruList ↔ j = i ∨ j ∈ c.lruList
  mem_free : ∀ j ∈ c'.freeList, j ∈ c.freeList
  blocknum : c'.blocknum = c.blocknum
  ptr : c'.ptr = c.ptr
  refCount : c'.refCount = update c.refCount i 0
  isDirty : c'.isDirty = update c.isDirty i false
  dev : c'.dev = if i ∈ c.lruList ∧ c.isDirty i then
    update c.dev (c.blocknum i) (c.ptr i) else c.dev
  evicted : i ∈ c.lruList → c.refCount i = 0

/-- `alloc_block` succeeds exactly when an entry is available. -/
theorem Inv.allocBlock_cases (h : Inv n c) :
    (Available c ∧ ∃ i c', allocBlock c = some (i, c') ∧ Allocated c c' i) ∨
      ¬ Available c ∧ allocBlock c = none := by
  cases hf : c.freeList with
  | cons i l =>
    have hi : i ∈ c.freeList := by simp [hf]
    refine .inl ⟨.inl (by simp [hf]), i, _, by rw [allocBlock, hf], ?_⟩
    refine ⟨?_, by simp [or_comm], fun j hj => by simp [hf, hj], rfl, rfl, rfl, ?_, ?_,
      fun hl => absurd hl (h.free_not_lru hi)⟩
    · rw [hf]
      simpa using (@List.perm_middle _ i (l ++ c.lruList) [])
    · rw [← h.free_clean i hi, update_eq_self]
    · rw [if_neg fun hl => h.free_not_lru hi hl.1]
  | nil =>
    cases hr : c.lruList.find? fun i => c.refCount i = 0 with
    | none =>
      refine .inr ⟨?_, by simp [allocBlock, hf, hr]⟩
      rintro (hne | ⟨i, hi, h0⟩)
      · exact hne hf
      · simpa [h0] using List.find?_eq_none.1 hr i hi
    | some i =>
      have hi := List.mem_of_find?_eq_some hr
      have h0 : c.refCount i = 0 := by simpa using List.find?_some hr
      have hfree : ∀ d : Bool, (if d then flushBlock c i else c).freeList = [] := by
        intro d
        cases d
        · exact hf
        · exact hf
      have hlru : ∀ d : Bool, (if d then flushBlock c i else c).lruList = c.lruList := by
        intro d
        cases d <;> rfl
      refine .inl ⟨.inr ⟨i, hi, h0⟩, i,
        Bcache.moveToTail (if c.isDirty i then flushBlock c i else c) i,
        by simp [allocBlock, hf, hr], ?_⟩
      refine ⟨?_, fun j => ?_, by simp [Bcache.moveToTail, hfree], ?_, ?_, ?_, ?_, ?_,
        fun _ => h0⟩
      · simp only [Bcache.moveToTail, hfree, hlru, hf, List.nil_append]
        exact List.perm_append_comm.trans (List.perm_cons_erase hi).symm
      · have hm := h.mem_moveToTail hi j
        simp only [Bcache.moveToTail] at hm
        simp only [Bcache.moveToTail, hlru, hm]
        exact ⟨.inr, fun h => h.elim (fun he => he ▸ hi) id⟩
      · cases c.isDirty i <;> rfl
      · cases c.isDirty i <;> rfl
      · rw [← h0, update_eq_self]
        cases c.isDirty i <;> rfl
      · cases hd : c.isDirty i
        · have he := update_eq_self i c.isDirty
          rw [hd] at he
          exact he.symm
        · rfl
      · cases hd : c.isDirty i
        · simp [Bcache.moveToTail]
        · simp [Bcache.moveToTail, flushBlock, hi]

/-- Giving an allocated entry to block `b` with contents `v`. -/
def place (c : Cache α) (i b : ℕ) (v : α) (dirty : Bool) : Cache α :=
  { c with
    blocknum := update c.blocknum i b
    ptr := update c.ptr i v
    isDirty := update c.isDirty i dirty }

theorem Allocated.dev_of_not_cached (ha : Allocated c c' i) (hb : ∀ j, ¬ Cached c b j) :
    c'.dev b = c.dev b := by
  rw [ha.dev]
  split_ifs with hi
  · exact update_of_ne (fun he => hb i ⟨hi.1, he.symm⟩) _ _
  · rfl

/-- The block that leaves its entry is on the device. -/
theorem Inv.dev_evicted (h : Inv n c) (ha : Allocated c c' i) (hi : i ∈ c.lruList) :
    c'.dev (c.blocknum i) = c.ptr i := by
  rw [ha.dev]
  rcases h.unreferenced i hi (ha.evicted hi) with hd | hd
  · rw [if_pos ⟨hi, hd⟩, update_self]
  · split_ifs
    · rw [update_self]
    · exact hd.symm

variable {v : α} {dirty : Bool}

theorem Allocated.cached_place (ha : Allocated c c' i) {x j : ℕ} :
    Cached (place c' i b v dirty) x j ↔ (j = i ∧ x = b) ∨ (j ≠ i ∧ Cached c x j) := by
  rcases eq_or_ne j i with rfl | hne
  · simp [Cached, place, ha.mem_lru, eq_comm]
  · simp [Cached, place, ha.mem_lru, hne, ha.blocknum]

/-- The entry that was taken holds a block that no other has. -/
theorem Inv.place (h : Inv n c) (ha : Allocated c c' i) (hb : ∀ j, ¬ Cached c b j)
    (hv : dirty = true ∨ v = c'.dev b) : Inv n (place c' i b v dirty) := by
  have hc : ∀ {x j}, Cached (Bcache.place c' i b v dirty) x j ↔ _ := ha.cached_place
  have hmem : ∀ j, j ∈ (Bcache.place c' i b v dirty).lruList → j ≠ i → j ∈ c.lruList :=
    fun j hj hne => ((ha.mem_lru j).1 hj).resolve_left hne
  refine ⟨ha.lists.trans h.lists, fun j hj k hk he => ?_, fun j hj => ?_, fun j hj h0 => ?_⟩
  · have hj' := hc.1 ⟨hj, he⟩
    have hk' := hc.1 ⟨hk, rfl⟩
    rcases hj' with ⟨rfl, hxb⟩ | ⟨-, hcj⟩ <;> rcases hk' with ⟨rfl, hxb'⟩ | ⟨-, hck⟩
    · rfl
    · exact absurd (hxb ▸ hck) (hb k)
    · exact absurd (hxb' ▸ hcj) (hb j)
    · exact h.unique j hcj.1 k hck.1 (hcj.2.trans hck.2.symm)
  · have hjf := ha.mem_free j hj
    rcases eq_or_ne j i with rfl | hne
    · -- an entry that is still free was not the one taken
      have hnd := (ha.lists.trans h.lists).nodup_iff.2 List.nodup_range
      exact absurd rfl ((List.nodup_append.1 hnd).2.2 j hj j ((ha.mem_lru j).2 (.inl rfl)))
    · simpa [Bcache.place, hne, ha.isDirty] using h.free_clean j hjf
  · rcases eq_or_ne j i with rfl | hne
    · rcases hv with rfl | rfl
      · exact .inl (by simp [Bcache.place])
      · exact .inr (by simp [Bcache.place])
    · have hjl := hmem j hj hne
      have h0' : c.refCount j = 0 := by simpa [Bcache.place, ha.refCount, hne] using h0
      have hdev : c'.dev (c.blocknum j) = c.dev (c.blocknum j) := by
        rw [ha.dev]
        split_ifs with hi
        · refine update_of_ne (fun he => hne ?_) _ _
          exact h.unique j hjl i hi.1 he
        · rfl
      have := h.unreferenced j hjl h0'
      simpa [Marked, Bcache.place, hne, ha.isDirty, ha.ptr, ha.blocknum, hdev] using this

/-- The store after an entry was given to block `b`. -/
theorem Inv.logical_place (h : Inv n c) (ha : Allocated c c' i) (hb : ∀ j, ¬ Cached c b j)
    (hv : dirty = true ∨ v = c'.dev b) :
    logical (Bcache.place c' i b v dirty) = update (logical c) b v := by
  have h' := h.place ha hb hv
  have hc : ∀ {x j}, Cached (Bcache.place c' i b v dirty) x j ↔ _ := ha.cached_place
  funext x
  rcases eq_or_ne x b with rfl | hxb
  · rw [h'.logical_of_cached (hc.2 (.inl ⟨rfl, rfl⟩)), update_self]
    simp [Bcache.place]
  rw [update_of_ne hxb]
  rcases em (∃ j, Cached c x j) with ⟨j, hj⟩ | hno
  · rw [h.logical_of_cached hj]
    rcases eq_or_ne j i with rfl | hne
    · rw [logical_of_not_cached]
      · have hdev : (Bcache.place c' j b v dirty).dev = c'.dev := rfl
        rw [← hj.2, hdev]
        exact h.dev_evicted ha hj.1
      · intro k hk
        rcases hc.1 hk with ⟨-, hx⟩ | ⟨hne, hk⟩
        · exact hxb hx
        · exact hne (h.unique k hk.1 j hj.1 (hk.2.trans hj.2.symm))
    · rw [h'.logical_of_cached (hc.2 (.inr ⟨hne, hj⟩))]
      simp [Bcache.place, hne, ha.ptr]
  · have hno' : ∀ j, ¬ Cached c x j := fun j hj => hno ⟨j, hj⟩
    rw [logical_of_not_cached hno', logical_of_not_cached]
    · exact ha.dev_of_not_cached hno'
    · intro k hk
      rcases hc.1 hk with ⟨-, hx⟩ | ⟨-, hk⟩
      · exact hxb hx
      · exact hno' k hk

/-! ### The calls -/

/-- The blocks that left the cache between `c` and `c'` were unreferenced, and the
device was written with the dirty one among them and with nothing else. -/
def Evicts (c c' : Cache α) : Prop :=
  ∀ i ∈ c.lruList, c'.blocknum i ≠ c.blocknum i → c.refCount i = 0 ∧
    c'.dev = if c.isDirty i then update c.dev (c.blocknum i) (c.ptr i) else c.dev

theorem Allocated.evicts (ha : Allocated c c' i) (b : ℕ) (v : α) (dirty : Bool) :
    Evicts c (place c' i b v dirty) := by
  intro j hj hne
  obtain rfl : j = i := by
    by_contra hji
    exact hne (by simp [place, hji, ha.blocknum])
  refine ⟨ha.evicted hj, ?_⟩
  have hdev : (place c' j b v dirty).dev = c'.dev := rfl
  rw [hdev, ha.dev]
  simp [hj]

/-- `find_or_fill_block` returns the entry of the block, and the store is the same. -/
theorem Inv.findOrFillBlock (h : Inv n c) (hok : (∃ i, Cached c b i) ∨ Available c) :
    ∃ i c', findOrFillBlock c b = some (i, c') ∧ Inv n c' ∧ Cached c' b i ∧
      logical c' = logical c ∧ Evicts c c' := by
  rcases h.findBlock_cases b with ⟨i, hi, hf⟩ | ⟨hno, hf⟩
  · exact ⟨i, Bcache.moveToTail c i, by rw [Bcache.findOrFillBlock, hf], h.moveToTail hi.1,
      ⟨(h.mem_moveToTail hi.1 i).2 hi.1, hi.2⟩, h.logical_moveToTail hi.1,
      fun j _ hne => absurd rfl hne⟩
  · have hav : Available c := hok.resolve_left fun ⟨i, hi⟩ => hno i hi
    rcases h.allocBlock_cases with ⟨-, i, c', ha, hal⟩ | ⟨hna, -⟩
    · have hclean : c'.isDirty = update c'.isDirty i false := by
        rw [hal.isDirty, update_idem]
      have hfill : Bcache.findOrFillBlock c b
          = some (i, Bcache.place c' i b (c'.dev b) false) := by
        rw [Bcache.findOrFillBlock, hf, ha, Bcache.place, ← hclean]
        rfl
      have hv : (false = true) ∨ c'.dev b = c'.dev b := .inr rfl
      refine ⟨i, _, hfill, h.place hal hno hv, hal.cached_place.2 (.inl ⟨rfl, rfl⟩), ?_,
        hal.evicts b _ false⟩
      rw [h.logical_place hal hno hv, hal.dev_of_not_cached hno, ← logical_of_not_cached hno,
        update_eq_self]
    · exact absurd hav hna

/-! ### References to a block -/

/-- How many references there are to a block. -/
def references (c : Cache α) (b : ℕ) : ℕ :=
  match c.lruList.find? fun i => c.blocknum i = b with
  | some i => c.refCount i
  | none => 0

theorem Inv.references_of_cached (h : Inv n c) (hc : Cached c b i) :
    references c b = c.refCount i := by
  rw [references, h.find?_eq hc]

theorem references_of_not_cached (hc : ∀ i, ¬ Cached c b i) : references c b = 0 := by
  rw [references, find?_eq_none_iff_not_cached.2 hc]

/-- Two caches that hold the same blocks in the same entries have the same references. -/
theorem Inv.references_congr (h : Inv n c) (h' : Inv n c')
    (hc : ∀ b i, Cached c' b i ↔ Cached c b i) (hr : ∀ i, c'.refCount i = c.refCount i) :
    references c' = references c := by
  funext b
  rcases em (∃ i, Cached c b i) with ⟨i, hi⟩ | hno
  · rw [h.references_of_cached hi, h'.references_of_cached ((hc b i).2 hi), hr]
  · have hno' : ∀ i, ¬ Cached c b i := fun i hi => hno ⟨i, hi⟩
    rw [references_of_not_cached hno', references_of_not_cached fun i hi => hno' i ((hc b i).1 hi)]

/-- The block that leaves its entry had no references, and the one that comes has none. -/
theorem Inv.references_place (h : Inv n c) (ha : Allocated c c' i) (hb : ∀ j, ¬ Cached c b j)
    (hv : dirty = true ∨ v = c'.dev b) :
    references (Bcache.place c' i b v dirty) = references c := by
  have h' := h.place ha hb hv
  have hc : ∀ {x j}, Cached (Bcache.place c' i b v dirty) x j ↔ _ := ha.cached_place
  have hr : ∀ j, (Bcache.place c' i b v dirty).refCount j = update c.refCount i 0 j :=
    fun j => congrFun ha.refCount j
  funext x
  rcases eq_or_ne x b with rfl | hxb
  · rw [h'.references_of_cached (hc.2 (.inl ⟨rfl, rfl⟩)), references_of_not_cached hb, hr,
      update_self]
  rcases em (∃ j, Cached c x j) with ⟨j, hj⟩ | hno
  · rw [h.references_of_cached hj]
    rcases eq_or_ne j i with rfl | hne
    · rw [ha.evicted hj.1, references_of_not_cached]
      intro k hk
      rcases hc.1 hk with ⟨-, hx⟩ | ⟨hne, hk⟩
      · exact hxb hx
      · exact hne (h.unique k hk.1 j hj.1 (hk.2.trans hj.2.symm))
    · rw [h'.references_of_cached (hc.2 (.inr ⟨hne, hj⟩)), hr, update_of_ne hne]
  · have hno' : ∀ j, ¬ Cached c x j := fun j hj => hno ⟨j, hj⟩
    rw [references_of_not_cached hno', references_of_not_cached]
    intro k hk
    rcases hc.1 hk with ⟨-, hx⟩ | ⟨-, hk⟩
    · exact hxb hx
    · exact hno' k hk

/-- `find_or_fill_block` takes no reference, and an entry can be had afterwards as before. -/
theorem Inv.findOrFillBlock_keeps (h : Inv n c) (hav : Available c)
    (hf : Bcache.findOrFillBlock c b = some (i, c')) :
    references c' = references c ∧ Available c' := by
  rcases h.findBlock_cases b with ⟨j, hj, hb⟩ | ⟨hno, hb⟩
  · rw [Bcache.findOrFillBlock, hb] at hf
    obtain ⟨rfl, rfl⟩ := Prod.mk.inj (Option.some.inj hf)
    have hm := h.mem_moveToTail hj.1
    refine ⟨h.references_congr (h.moveToTail hj.1) (fun _ k => and_congr_left' (hm k))
      fun _ => rfl, ?_⟩
    exact hav.imp id fun ⟨k, hk, h0⟩ => ⟨k, (hm k).2 hk, h0⟩
  · rcases h.allocBlock_cases with ⟨-, j, c₁, ha, hal⟩ | ⟨hna, -⟩
    · have hclean : c₁.isDirty = update c₁.isDirty j false := by
        rw [hal.isDirty, update_idem]
      rw [Bcache.findOrFillBlock, hb, ha] at hf
      obtain ⟨rfl, rfl⟩ := Prod.mk.inj (Option.some.inj hf)
      have hplace : { c₁ with
          blocknum := update c₁.blocknum j b
          ptr := update c₁.ptr j (c₁.dev b) } = Bcache.place c₁ j b (c₁.dev b) false := by
        rw [Bcache.place, ← hclean]
      rw [hplace]
      refine ⟨h.references_place hal hno (.inr rfl), .inr ⟨j, (hal.mem_lru j).2 (.inl rfl), ?_⟩⟩
      exact (congrFun hal.refCount j).trans (update_self ..)
    · exact absurd hav hna

/-- Changing the reference count of one entry that then is marked or referenced. -/
theorem Inv.setRef (h : Inv n c) (r : ℕ) (hr : r = 0 → Marked c i) :
    Inv n { c with refCount := update c.refCount i r } := by
  refine ⟨h.lists, h.unique, h.free_clean, fun j hj h0 => ?_⟩
  rcases eq_or_ne j i with rfl | hne
  · exact hr (by simpa using h0)
  · exact h.unreferenced j hj (by simpa [hne] using h0)

/-- Marking an entry that is in use. -/
theorem Inv.setDirty (h : Inv n c) (hi : i ∈ c.lruList) (p : ℕ → α)
    (hp : ∀ j, j ≠ i → p j = c.ptr j) :
    Inv n { c with ptr := p, isDirty := update c.isDirty i true } := by
  refine ⟨h.lists, h.unique, fun j hj => ?_, fun j hj h0 => ?_⟩
  · have hne : j ≠ i := fun he => h.free_not_lru hj (he ▸ hi)
    simpa [hne] using h.free_clean j hj
  · rcases eq_or_ne j i with rfl | hne
    · exact .inl (by simp)
    · have := h.unreferenced j hj h0
      simpa [Marked, hne, hp j hne] using this

/-- Writing the contents of the entry of `b`. -/
theorem Inv.logical_setPtr (h : Inv n c) (hi : Cached c b i) (v : α) (dirty : ℕ → Bool)
    (h' : Inv n { c with ptr := update c.ptr i v, isDirty := dirty }) :
    logical { c with ptr := update c.ptr i v, isDirty := dirty }
      = update (logical c) b v := by
  funext x
  rcases eq_or_ne x b with rfl | hxb
  · rw [h'.logical_of_cached hi, update_self]
    simp
  rw [update_of_ne hxb]
  rcases em (∃ j, Cached c x j) with ⟨j, hj⟩ | hno
  · have hne : j ≠ i := fun he => hxb (hj.2.symm.trans (he ▸ hi.2))
    rw [h.logical_of_cached hj, h'.logical_of_cached hj]
    simp [hne]
  · have hno' : ∀ j, ¬ Cached c x j := fun j hj => hno ⟨j, hj⟩
    rw [logical_of_not_cached hno']
    exact logical_of_not_cached hno'

/-! ### Flushing -/

/-- The loop of `bcache_flush` over entries with different blocks. -/
theorem foldl_flushBlock (l : List ℕ) (hl : l.Nodup)
    (hu : ∀ i ∈ l, ∀ j ∈ l, c.blocknum i = c.blocknum j → i = j) :
    ∃ dev dirty, l.foldl (fun c i => if c.isDirty i then flushBlock c i else c) c
        = { c with dev := dev, isDirty := dirty } ∧
      (∀ i, dirty i = (c.isDirty i && decide (i ∉ l))) ∧
      (∀ i ∈ l, c.isDirty i → dev (c.blocknum i) = c.ptr i) ∧
      ∀ b, (∀ i ∈ l, c.isDirty i → c.blocknum i ≠ b) → dev b = c.dev b := by
  induction l generalizing c with
  | nil => exact ⟨c.dev, c.isDirty, rfl, by simp, by simp, fun _ _ => rfl⟩
  | cons i l ih =>
    rw [List.nodup_cons] at hl
    have hu' : ∀ j ∈ l, ∀ k ∈ l, c.blocknum j = c.blocknum k → j = k := fun j hj k hk =>
      hu j (List.mem_cons_of_mem _ hj) k (List.mem_cons_of_mem _ hk)
    rw [List.foldl_cons]
    cases hd : c.isDirty i with
    | false =>
      obtain ⟨dev, dirty, he, h₁, h₂, h₃⟩ := ih hl.2 hu'
      refine ⟨dev, dirty, by simpa [hd] using he, fun j => ?_, fun j hj hjd => ?_, fun b hb => ?_⟩
      · rcases eq_or_ne j i with rfl | hne
        · simp [h₁, hd]
        · simp [h₁, hne]
      · rcases List.mem_cons.1 hj with rfl | hj
        · simp [hd] at hjd
        · exact h₂ j hj hjd
      · exact h₃ b fun j hj => hb j (List.mem_cons_of_mem _ hj)
    | true =>
      obtain ⟨dev, dirty, he, h₁, h₂, h₃⟩ := ih (c := flushBlock c i) hl.2 hu'
      have hne : ∀ j ∈ l, j ≠ i := fun j hj he => hl.1 (he ▸ hj)
      refine ⟨dev, dirty, by rw [if_pos rfl]; exact he, fun j => ?_, fun j hj hjd => ?_, fun b hb => ?_⟩
      · rcases eq_or_ne j i with rfl | hji
        · simp [h₁, flushBlock]
        · simp [h₁, hji, flushBlock]
      · rcases List.mem_cons.1 hj with rfl | hj
        · rw [h₃ (c.blocknum j)]
          · simp [flushBlock]
          · intro k hk _ hb
            exact hne k hk (hu k (List.mem_cons_of_mem _ hk) j List.mem_cons_self hb)
        · exact h₂ j hj (by simpa [flushBlock, hne j hj] using hjd)
      · rw [h₃ b]
        · exact update_of_ne (hb i List.mem_cons_self hd).symm _ _
        · intro j hj hjd
          exact hb j (List.mem_cons_of_mem _ hj) (by simpa [flushBlock, hne j hj] using hjd)

/-- `bcache_flush` keeps the store, leaves no entry dirty, and brings the device up
to date if what was changed had been marked. -/
theorem Inv.flush (h : Inv n c) :
    Inv n (bcacheFlush c) ∧ logical (bcacheFlush c) = logical c ∧
      (bcacheFlush c).blocknum = c.blocknum ∧ (∀ i < n, (bcacheFlush c).isDirty i = false) ∧
      ((∀ i ∈ c.lruList, Marked c i) → (bcacheFlush c).dev = logical c) := by
  obtain ⟨dev, dirty, he, h₁, h₂, h₃⟩ := foldl_flushBlock c.lruList h.lru_nodup h.unique
  have hold : ∀ i ∈ c.lruList, ¬ c.isDirty i → dev (c.blocknum i) = c.dev (c.blocknum i) := by
    intro i hi hd
    refine h₃ _ fun j hj hjd hb => hd ?_
    rw [← h.unique j hj i hi hb]
    exact hjd
  have hinv : Inv n (bcacheFlush c) := by
    rw [bcacheFlush, he]
    refine ⟨h.lists, h.unique, fun i hi => ?_, fun i hi h0 => .inr ?_⟩
    · simp [h₁, h.free_clean i hi]
    · rcases em (c.isDirty i = true) with hd | hd
      · exact (h₂ i hi hd).symm
      · rcases h.unreferenced i hi h0 with hd' | hd'
        · exact absurd hd' hd
        · exact hd'.trans (hold i hi hd).symm
  have hlog : logical (bcacheFlush c) = logical c := by
    refine h.logical_congr hinv (fun b i => ?_) (fun _ i _ => ?_) fun b hb => ?_
    · rw [bcacheFlush, he]
      exact .rfl
    · rw [bcacheFlush, he]
    · rw [bcacheFlush, he]
      exact h₃ b fun i hi _ hib => hb i ⟨hi, hib⟩
  refine ⟨hinv, hlog, by rw [bcacheFlush, he], fun i hi => ?_, fun hm => ?_⟩
  · rw [bcacheFlush, he]
    rcases List.mem_append.1 (h.lists.mem_iff.2 (List.mem_range.2 hi)) with hf | hl
    · simp [h₁, h.free_clean i hf]
    · simp [h₁, hl]
  · funext b
    rw [bcacheFlush, he]
    rcases em (∃ i, Cached c b i) with ⟨i, hi⟩ | hno
    · rw [h.logical_of_cached hi, ← hi.2]
      rcases em (c.isDirty i = true) with hd | hd
      · exact h₂ i hi.1 hd
      · exact (hold i hi.1 hd).trans ((hm i hi.1).resolve_left hd).symm
    · have hno' : ∀ i, ¬ Cached c b i := fun i hi => hno ⟨i, hi⟩
      rw [logical_of_not_cached hno']
      exact h₃ b fun i hi _ hib => hno' i ⟨hi, hib⟩

/-! ### Refinement -/

theorem inv_bcacheCreate (n : ℕ) (blocknum : ℕ → ℕ) (ptr dev : ℕ → α) :
    Inv n (bcacheCreate n blocknum ptr dev) where
  lists := by simp [bcacheCreate]
  unique i hi := by simp [bcacheCreate] at hi
  free_clean i _ := rfl
  unreferenced i hi := by simp [bcacheCreate] at hi

variable [Zero α]

/-- Every call whose obligation is met returns, does what the store does, and
evicts as it should. -/
theorem Inv.step (h : Inv n c) (op : Op α) (hok : op.Ok c) :
    ∃ c' o, bcacheStep c op = some (c', o) ∧ StoreSpec (logical c) op o (logical c') ∧
      Inv n c' ∧ Evicts c c' := by
  cases op with
  | read b =>
    obtain ⟨i, c', hf, h', hc, hl, hev⟩ := h.findOrFillBlock hok
    refine ⟨c', .data (c'.ptr i), by simp [bcacheStep, hf], ⟨?_, hl⟩, h', hev⟩
    rw [← hl, h'.logical_of_cached hc]
  | get b =>
    obtain ⟨i, c', hf, h', hc, hl, hev⟩ := h.findOrFillBlock hok
    refine ⟨{ c' with refCount := update c'.refCount i (c'.refCount i + 1) },
      .data (c'.ptr i), by simp [bcacheStep, hf], ⟨?_, hl⟩, h'.setRef _ (by omega), hev⟩
    rw [← hl, h'.logical_of_cached hc]
  | poke b v =>
    obtain ⟨i, hi, hr⟩ := hok
    have h' : Inv n { c with ptr := update c.ptr i v } := by
      refine ⟨h.lists, h.unique, h.free_clean, fun j hj h0 => ?_⟩
      have hne : j ≠ i := by
        rintro rfl
        exact absurd h0 (by simpa using hr.ne')
      simpa [Marked, hne] using h.unreferenced j hj h0
    exact ⟨_, .ret 0, by simp [bcacheStep, h.find?_eq hi, hr],
      h.logical_setPtr hi v c.isDirty h', h', fun j _ hne => absurd rfl hne⟩
  | put b =>
    obtain ⟨i, hi, hr, hm⟩ := hok
    rcases h.findBlock_cases b with ⟨j, hj, hf⟩ | ⟨hno, -⟩
    · obtain rfl : i = j := h.unique i hi.1 j hj.1 (hi.2.trans hj.2.symm)
      have h' := h.moveToTail hi.1
      refine ⟨_, .ret 0, ?_, ?_, h'.setRef (i := i) (c.refCount i - 1) fun h0 => hm (by omega),
        fun j _ hne => absurd rfl hne⟩
      · simp only [bcacheStep, hf]
        exact if_pos hr
      · exact h.logical_moveToTail hi.1
    · exact absurd hi (hno i)
  | markDirty b =>
    rcases h.findBlock_cases b with ⟨i, hi, hf⟩ | ⟨-, hf⟩
    · have h' := (h.moveToTail hi.1).setDirty ((h.mem_moveToTail hi.1 i).2 hi.1) c.ptr
        fun _ _ => rfl
      exact ⟨{ Bcache.moveToTail c i with isDirty := update c.isDirty i true }, .ret 0,
        by rw [bcacheStep, hf]; rfl, h.logical_moveToTail hi.1, h',
        fun j _ hne => absurd rfl hne⟩
    · exact ⟨c, .ret (-1), by simp [bcacheStep, hf], rfl, h, fun j _ hne => absurd rfl hne⟩
  | zero b =>
    rcases h.findBlock_cases b with ⟨i, hi, hf⟩ | ⟨hno, hf⟩
    · have hi' : Cached (Bcache.moveToTail c i) b i := ⟨(h.mem_moveToTail hi.1 i).2 hi.1, hi.2⟩
      have h' := (h.moveToTail hi.1).setDirty hi'.1 (update c.ptr i 0)
        fun j hj => update_of_ne hj _ _
      refine ⟨_, .ret 0, by rw [bcacheStep, hf]; rfl, .inl ⟨rfl, ?_⟩, h',
        fun j _ hne => absurd rfl hne⟩
      rw [← h.logical_moveToTail hi.1]
      exact (h.moveToTail hi.1).logical_setPtr hi' 0 _ h'
    · rcases h.allocBlock_cases with ⟨-, i, c', ha, hal⟩ | ⟨-, ha⟩
      · exact ⟨Bcache.place c' i b 0 true, .ret 0, by simp [bcacheStep, hf, ha, Bcache.place],
          .inl ⟨rfl, h.logical_place hal hno (.inl rfl)⟩, h.place hal hno (.inl rfl),
          hal.evicts b 0 true⟩
      · exact ⟨c, .ret (-1), by simp [bcacheStep, hf, ha], .inr ⟨rfl, rfl⟩, h,
          fun j _ hne => absurd rfl hne⟩
  | flush =>
    obtain ⟨h', hl, hb, -, -⟩ := h.flush
    exact ⟨bcacheFlush c, .ret 0, rfl, hl, h', fun j _ hne => absurd (congrFun hb j) hne⟩

end Bcache
end LittleKernel
