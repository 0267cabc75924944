/-
# `calloc` and `realloc`

`lib/heap/heap_wrapper.c`: `HEAP_CALLOC` as it is for the mini heap; `lib/heap/miniheap/miniheap.c`:
`miniheap_realloc`.

Both end in a loop over bytes, `memset` and `memcpy`, and neither looks at what it was given:
`calloc` multiplies modulo `2 ^ 64`, and `miniheap_realloc` copies as many bytes as are asked for.
-/

import LittleKernel.Lib.Bytes
import LittleKernel.Miniheap.Live

namespace LittleKernel
namespace Miniheap

open Word Bytes Ranges Function

namespace Heap

/-- The byte at `a`, of the word that it lies in. -/
def loadByte (a : ℕ) (s : Heap) : UInt8 := (le 8 (s.mem (a / 8 * 8))).getD (a % 8) 0

/-- One byte written. -/
def storeByte (a : ℕ) (v : UInt8) (s : Heap) : Heap :=
  s.store (a / 8 * 8) (ofLe ((le 8 (s.mem (a / 8 * 8))).set (a % 8) v))

/-- `memset`. -/
def memset (p : ℕ) (v : UInt8) : ℕ → Heap → Heap
  | 0, s => s
  | n + 1, s => (memset p v n s).storeByte (p + n) v

/-- `memcpy`. -/
def memcpy (dst src : ℕ) : ℕ → Heap → Heap
  | 0, s => s
  | n + 1, s =>
    let s := memcpy dst src n s
    s.storeByte (dst + n) (s.loadByte (src + n))

end Heap

/-- `calloc`. -/
def calloc (c : Config) (n size : ℕ) (s : Heap) : Option (ℕ × Heap) := do
  let realsize := u64 (n * size)
  let (ptr, s) ← miniheapAlloc c realsize 0 s
  some (ptr, if ptr ≠ 0 then s.memset ptr 0 realsize else s)

/-- What a call returns, the range that `memcpy` has read if it was called, and the heap. -/
structure Moved where
  ptr : ℕ
  read : Option (ℕ × ℕ)
  heap : Heap

/-- `miniheap_realloc`. -/
def miniheapRealloc (c : Config) (ptr size : ℕ) (s : Heap) : Option Moved :=
  if ptr = 0 then (miniheapAlloc c size 0 s).map fun (p, s) => ⟨p, none, s⟩
  else if size = 0 then (miniheapFree c ptr s).map fun s => ⟨0, none, s⟩
  else do
    let (p, s) ← miniheapAlloc c size 0 s
    if p = 0 then some ⟨0, none, s⟩
    else do
      let s := s.memcpy p ptr size
      let s ← miniheapFree c ptr s
      some ⟨p, some (ptr, size), s⟩

/-! ### Bytes of words -/

namespace Heap

variable {s : Heap} {a b : ℕ}

/-- The word with another byte in it. -/
theorem le_storeByte (a : ℕ) (v : UInt8) (s : Heap) :
    le 8 ((s.storeByte a v).mem (a / 8 * 8)) = (le 8 (s.mem (a / 8 * 8))).set (a % 8) v := by
  have hle := le_ofLe ((le 8 (s.mem (a / 8 * 8))).set (a % 8) v)
  rw [List.length_set, length_le] at hle
  exact (congrArg (le 8) (update_self ..)).trans hle

theorem loadByte_congr {s' : Heap} (h : s'.mem (a / 8 * 8) = s.mem (a / 8 * 8)) :
    s'.loadByte a = s.loadByte a := by
  rw [loadByte, loadByte, h]

@[simp] theorem loadByte_storeByte_self (a : ℕ) (v : UInt8) (s : Heap) :
    (s.storeByte a v).loadByte a = v := by
  rw [loadByte, le_storeByte, List.getD_eq_getElem _ _ (by simp; omega), List.getElem_set_self]

theorem loadByte_storeByte_of_ne (v : UInt8) (s : Heap) (h : b ≠ a) :
    (s.storeByte a v).loadByte b = s.loadByte b := by
  by_cases hw : b / 8 * 8 = a / 8 * 8
  · -- another byte of the word
    rw [loadByte, loadByte, hw, le_storeByte, List.getD_eq_getElem _ _ (by simp; omega),
      List.getD_eq_getElem _ _ (by simp; omega), List.getElem_set_ne (by omega)]
  · exact loadByte_congr (update_of_ne hw ..)

/-- **The bytes that `memset` has written.** -/
theorem loadByte_memset (p : ℕ) (v : UInt8) (n : ℕ) (s : Heap) :
    (memset p v n s).loadByte a = if p ≤ a ∧ a < p + n then v else s.loadByte a := by
  induction n with
  | zero => rw [memset, if_neg (by omega)]
  | succ n ih =>
    rw [memset]
    by_cases ha : a = p + n
    · rw [ha, loadByte_storeByte_self, if_pos (by omega)]
    · rw [loadByte_storeByte_of_ne _ _ ha, ih]
      congr 1
      exact propext (by omega)

/-- **The bytes that `memcpy` has copied**, from a range that it does not write. -/
theorem loadByte_memcpy {dst src : ℕ} (n : ℕ) (s : Heap) (h : dst + n ≤ src ∨ src + n ≤ dst) :
    (memcpy dst src n s).loadByte a =
      if dst ≤ a ∧ a < dst + n then s.loadByte (src + (a - dst)) else s.loadByte a := by
  induction n generalizing a with
  | zero => rw [memcpy, if_neg (by omega)]
  | succ n ih =>
    have ih (a : ℕ) := ih (a := a) (by omega)
    rw [memcpy]
    by_cases ha : a = dst + n
    · rw [ha, loadByte_storeByte_self, ih, if_neg (by omega), if_pos (by omega),
        Nat.add_sub_cancel_left]
    · rw [loadByte_storeByte_of_ne _ _ ha, ih]
      congr 1
      exact propext (by omega)

end Heap

variable {size : ℕ}

section Blocks

variable {c : Config} {F X : List (ℕ × ℕ)} {B : List Block} {s s' : Heap} {b : Block}

/-- A byte of a block is written. -/
theorem Inv.storeByte (h : Inv c B s) (hb : b ∈ B) {a : ℕ} (h₁ : b.ptr ≤ a)
    (h₂ : a < b.ptr + b.size) (v : UInt8) : Inv c B (s.storeByte a v) := by
  obtain ⟨F, hcore, hrem⟩ := h
  have hword := (hcore.blocks b hb).word
  exact ⟨F, hcore.store_payload hb (by omega) (by omega) _, hrem⟩

theorem Inv.memset (h : Inv c B s) (hb : b ∈ B) (v : UInt8) (n : ℕ) (hn : n ≤ b.size) :
    Inv c B (s.memset b.ptr v n) := by
  induction n with
  | zero => exact h
  | succ n ih => exact (ih (by omega)).storeByte hb (by omega) (by omega) v

theorem Inv.memcpy (h : Inv c B s) (hb : b ∈ B) (src n : ℕ) (hn : n ≤ b.size) :
    Inv c B (s.memcpy b.ptr src n) := by
  induction n with
  | zero => exact h
  | succ n ih => exact (ih (by omega)).storeByte hb (by omega) (by omega) _

/-! ### What the calls leave alone -/

variable {q : ℕ × ℕ}

/-- A word of a block is not the length of a chunk. -/
theorem Core.ne_header (h : Core c F X B s) (hb : b ∈ B) (hq : q ∈ F ++ X) {a i : ℕ}
    (ha : b.chunk ≤ a ∧ a < b.chunk + b.len) (hi : i < q.2) : a ≠ q.1 + i := by
  have hapart := (List.pairwise_append.1 h.apart).2.2 q hq b.range (List.mem_map_of_mem hb)
  rcases hapart with h | h <;> simp only [Block.range] at h <;> omega

/-- **A piece that goes back to the list.** -/
theorem Core.free_mem {x : ℕ × ℕ} {s₁ s₂ : Heap} {r : ℕ} (h : Core c F [x] B s)
    (h₁ : heapCreateFreeChunk c x.1 x.2 s = some s₁)
    (h₂ : heapInsertFreeChunk c x.1 s₁ = some (r, s₂)) (hb : b ∈ B) {a : ℕ}
    (ha : b.chunk ≤ a ∧ a < b.chunk + b.len) : s₂.mem a = s.mem a := by
  rw [heapCreateFreeChunk_eq h.loose_piece.2.2, Option.some.injEq] at h₁
  subst h₁
  rw [(h.setChunkLen List.mem_cons_self x.2).heapInsertFreeChunk_eq
    (Heap.chunkLen_setChunkLen ..), Option.some.injEq, Prod.mk.injEq] at h₂
  obtain ⟨q, hq, hfst⟩ := joined_fst_mem x F
  have hne {q : ℕ × ℕ} (hq : q ∈ x :: F) : a ≠ q.1 + 16 := by
    have hmem : q ∈ F ++ [x] := by
      rcases List.mem_cons.1 hq with rfl | hq <;> simp [*]
    have h24 : 24 ≤ q.2 := (h.piece q (List.mem_append_left _ hmem)).1
    exact h.ne_header hb hmem ha (by omega)
  rw [← h₂.2]
  exact (update_of_ne (hfst ▸ hne hq) ..).trans
    (update_of_ne (hne List.mem_cons_self) ..)

theorem Inv.miniheapFree_mem {B₁ B₂ : List Block} {d : Block} (h : Inv c (B₁ ++ d :: B₂) s)
    (hs : Miniheap.miniheapFree c d.ptr s = some s') (hb : b ∈ B₁ ++ B₂) {a : ℕ}
    (ha : b.chunk ≤ a ∧ a < b.chunk + b.len) : s'.mem a = s.mem a := by
  obtain ⟨F, hcore, hrem⟩ := h
  have hok := hcore.blocks d (by simp)
  have hpos : 0 < d.ptr := by
    have := hok.start
    have := c.sixteen_le
    omega
  obtain ⟨s₁, r, s₂, h₁, h₂, -⟩ := hcore.giveUp.free hrem
  have hmagic : debugAssert c (s.mem (d.ptr - 24) = heapMagic) = some () := by
    rw [debugAssert, if_neg fun hd => hd.2 (hok.magic hd.1)]
  have hmem := hcore.giveUp.free_mem h₁ h₂ hb ha
  simp only [Block.range] at h₁ h₂
  simp only [Miniheap.miniheapFree, if_neg hpos.ne', hmagic, hok.chunk, hok.len, h₁, h₂,
    Option.bind_eq_bind, Option.bind_some, Option.some.injEq] at hs
  rw [← hs, hmem]

theorem Inv.heapGrow_mem (h : Inv c B s) {err : ℤ}
    (hs : Miniheap.heapGrow c size s = some (err, s')) (hb : b ∈ B) {a : ℕ}
    (ha : b.chunk ≤ a ∧ a < b.chunk + b.len) : s'.mem a = s.mem a := by
  obtain ⟨n, hn⟩ : ∃ n, n = u64 (size + (pageSize - 1)) / pageSize := ⟨_, rfl⟩
  have hdiv : n * pageSize / pageSize = n := Nat.mul_div_cancel _ (by decide)
  simp only [Miniheap.heapGrow, rounddown, ← hn, hdiv] at hs
  rcases pageAlloc_cases c n s with ⟨answer, hp⟩ | ⟨p, hf, hp⟩
  · rw [hp] at hs
    simp only [if_true, Option.some.injEq, Prod.mk.injEq] at hs
    rw [← hs.2]
  · obtain ⟨F, hcore, hrem⟩ := h.answer none
    obtain ⟨hn0, hp0, halign, hend, hhead, hnew⟩ := hf
    have hpiece : Piece (p, n * pageSize) := by
      simp only [Piece, pageSize, sizeofFreeHeapChunk] at hn0 halign ⊢
      omega
    have hgain := hcore.gain hpiece hp0 hend hhead hnew
    obtain ⟨s₁, r, s₂, h₁, h₂, -⟩ := hgain.free hrem
    have hmem := hgain.free_mem h₁ h₂ hb ha
    rw [hp] at hs
    simp only [if_neg hp0.ne', h₁, h₂, Option.bind_eq_bind, Option.bind_some, Option.some.injEq,
      Prod.mk.injEq] at hs
    rw [← hs.2]
    exact hmem

theorem heapCreateFreeChunk_eq_some {ptr len : ℕ} (h : heapCreateFreeChunk c ptr len s = some s') :
    s' = s.setChunkLen ptr len := by
  simp only [heapCreateFreeChunk, debugAssert] at h
  split_ifs at h
  · cases h
  · exact (Option.some.inj h).symm

/-- The end of a chunk that stays on the list. -/
theorem Core.splitChunk_mem (h : Core c F X B s) (hq : q ∈ F)
    (hlt : size + sizeofFreeHeapChunk < 2 ^ 64) (hs : Miniheap.splitChunk c size q.1 s = some s')
    (hb : b ∈ B) {a : ℕ} (ha : b.chunk ≤ a ∧ a < b.chunk + b.len) : s'.mem a = s.mem a := by
  have hne {i : ℕ} (hi : i < q.2) : a ≠ q.1 + i :=
    h.ne_header hb (List.mem_append_left _ hq) ha hi
  have h24 : 24 ≤ q.2 := (h.piece q (by simp [hq])).1
  simp only [sizeofFreeHeapChunk] at hlt
  simp only [Miniheap.splitChunk, sizeofFreeHeapChunk, u64_of_lt hlt, h.lens q hq,
    Option.bind_eq_bind] at hs
  split_ifs at hs with hfit
  · obtain ⟨s₁, h₁, hs⟩ := Option.bind_eq_some_iff.1 hs
    obtain rfl := heapCreateFreeChunk_eq_some h₁
    rw [← Option.some.inj hs]
    refine (update_of_ne (hne (by omega)) ..).trans (update_of_ne ?_ ..)
    rw [Nat.add_assoc]
    exact hne (by omega)
  · rw [← Option.some.inj hs]

/-- The header of a block in a chunk. -/
theorem writeAllocStruct_mem {ptr chunk size a : ℕ}
    (ha : ∀ k, 8 ≤ k → k ≤ c.sizeofAllocStructBegin → a ≠ ptr - k) :
    (writeAllocStruct c ptr chunk size s).mem a = s.mem a := by
  have h16 := c.sixteen_le
  rw [writeAllocStruct]
  refine (update_of_ne (ha 8 le_rfl (by omega)) ..).trans
    ((update_of_ne (ha 16 (by omega) h16) ..).trans ?_)
  split_ifs with hd
  · exact update_of_ne (ha 24 (by omega) (Config.of_debug hd).ge) ..
  · rfl

theorem Core.allocChunk_mem {size ptr : ℕ} (h : Core c F X B s) (hq : q ∈ F)
    (hlt : size + sizeofFreeHeapChunk < 2 ^ 64)
    (hs : Miniheap.allocChunk c size 0 q.1 s = some (ptr, s')) (hb : b ∈ B) {a : ℕ}
    (ha : b.chunk ≤ a ∧ a < b.chunk + b.len) : s'.mem a = s.mem a := by
  have h24 : 24 ≤ q.2 := (h.piece q (by simp [hq])).1
  simp only [Miniheap.allocChunk, Option.bind_eq_bind] at hs
  obtain ⟨s₁, h₁, hs⟩ := Option.bind_eq_some_iff.1 hs
  obtain ⟨-, -, hs⟩ := Option.bind_eq_some_iff.1 hs
  rw [← (Prod.mk.inj (Option.some.inj hs)).2]
  refine Eq.trans (writeAllocStruct_mem fun k h8 hk => ?_) (h.splitChunk_mem hq hlt h₁ hb ha)
  have hhdr : c.sizeofAllocStructBegin ≤ 24 := by
    rw [Config.sizeofAllocStructBegin]
    split_ifs <;> omega
  rw [if_neg (Nat.lt_irrefl 0), Nat.add_sub_assoc hk]
  exact h.ne_header hb (List.mem_append_left _ hq) ha (by omega)

/-- The search that finds nothing. -/
theorem findChunk_none {l : List ℕ} (h : findChunk c size s l = some none) :
    ∀ chunk ∈ l, s.chunkLen chunk < size := by
  induction l with
  | nil => simp
  | cons chunk l ih =>
    simp only [findChunk, Option.bind_eq_bind] at h
    obtain ⟨-, -, h⟩ := Option.bind_eq_some_iff.1 h
    split_ifs at h with hle
    · cases h
    · exact List.forall_mem_cons.2 ⟨by omega, ih h⟩

/-- One try: what is left alone, and what `NULL` says. -/
theorem Inv.allocTry_mem {size ptr : ℕ} (h : Inv c B s) (hw : Fits c size 0)
    (hs : Miniheap.allocTry c (need c size 0) 0 s = some (ptr, s')) :
    (∀ b ∈ B, ∀ a, b.chunk ≤ a ∧ a < b.chunk + b.len → s'.mem a = s.mem a) ∧
      (ptr = 0 → s' = s ∧ ∀ chunk ∈ s.freeList, s.chunkLen chunk < need c size 0) := by
  obtain ⟨F, hcore, hrem⟩ := h
  rw [Miniheap.allocTry, hcore.freeList] at hs
  rcases findChunk_spec c (need c size 0) hcore.lens fun q hq => hcore.piece q (by simp [hq]) with
    hf | ⟨A, q, D, rfl, hq, hf⟩
  · have hnone := findChunk_none hf
    rw [hf] at hs
    simp only [Option.bind_eq_bind, Option.bind_some, Option.some.injEq, Prod.mk.injEq] at hs
    obtain ⟨rfl, rfl⟩ := hs
    exact ⟨fun _ _ _ _ => rfl, fun _ => ⟨rfl, hcore.freeList ▸ hnone⟩⟩
  · rw [hf] at hs
    simp only [Option.bind_eq_bind, Option.bind_some] at hs
    obtain ⟨b, s₁, hs₁, hpos, -⟩ := hcore.allocChunk hrem (by decide) (by decide) hw hq
    rw [hs₁, Option.some.injEq, Prod.mk.injEq] at hs
    obtain ⟨rfl, rfl⟩ := hs
    exact ⟨fun d hd a ha => hcore.allocChunk_mem (by simp) hw hs₁ hd ha, fun h0 => by omega⟩

/-- **`miniheap_alloc`**. -/
theorem Inv.miniheapAlloc_mem {size ptr : ℕ} (h : Inv c B s) (hw : Fits c size 0)
    (hs : Miniheap.miniheapAlloc c size 0 s = some (ptr, s')) :
    (∀ b ∈ B, ∀ a, b.chunk ≤ a ∧ a < b.chunk + b.len → s'.mem a = s.mem a) ∧
      (ptr = 0 → ∀ chunk ∈ s.freeList, s.chunkLen chunk < allocSize c size 0) := by
  rw [allocSize_eq hw]
  obtain ⟨ptr₁, s₁, hs₁, -⟩ : ∃ ptr s', Miniheap.allocTry c (need c size 0) 0 s = some (ptr, s') ∧
      Served c size 0 B ptr s' := h.allocTry (by decide) (by decide) hw
  obtain ⟨hmem₁, hnull⟩ := h.allocTry_mem hw hs₁
  simp only [Miniheap.miniheapAlloc, allocSize_eq hw, if_neg (show ¬ 0 &&& sub32 0 1 ≠ 0 by decide),
    hs₁, Option.bind_eq_bind, Option.bind_some] at hs
  by_cases h0 : ptr₁ = 0
  · -- the heap grows
    obtain ⟨rfl, hshort⟩ := hnull h0
    refine ⟨fun b hb a ha => ?_, fun _ => hshort⟩
    obtain ⟨err, s₂, hs₂, hinv₂⟩ := h.heapGrow (need c size 0)
    have hmem₂ := h.heapGrow_mem hs₂ hb ha
    simp only [h0, ne_eq, not_true_eq_false, if_false, hs₂, Option.bind_some] at hs
    split_ifs at hs
    · exact ((hinv₂.allocTry_mem hw hs).1 b hb a ha).trans hmem₂
    · rw [Option.some.injEq, Prod.mk.injEq] at hs
      rw [← hs.2, hmem₂]
  · rw [if_pos h0, Option.some.injEq, Prod.mk.injEq] at hs
    obtain ⟨rfl, rfl⟩ := hs
    exact ⟨hmem₁, fun h => absurd h h0⟩

/-- **Memory is short for a request**: no chunk is as long as what it is searched with, and the
pages are refused. -/
def Short (c : Config) (size : ℕ) (s : Heap) : Prop :=
  (∀ chunk ∈ s.freeList, s.chunkLen chunk < allocSize c size 0) ∧
    (pageAlloc c (rounddown (u64 (allocSize c size 0 + (pageSize - 1))) pageSize / pageSize) s).1 = 0

instance (c : Config) (size : ℕ) (s : Heap) : Decidable (Short c size s) :=
  inferInstanceAs (Decidable ((∀ chunk ∈ s.freeList, _) ∧ _))

theorem Inv.miniheapAlloc_short (h : Inv c B s) (hshort : Short c size s) :
    ∃ answer, Miniheap.miniheapAlloc c size 0 s = some (0, { s with answer := answer }) := by
  obtain ⟨F, hcore, hrem⟩ := h
  have hfind : findChunk c (allocSize c size 0) s s.freeList = some none := by
    have hlen := hshort.1
    rw [hcore.freeList] at hlen ⊢
    rcases findChunk_spec c (allocSize c size 0) hcore.lens fun q hq => hcore.piece q (by simp [hq])
      with hf | ⟨A, q, D, rfl, hq, -⟩
    · exact hf
    · have := hlen q.1 (by simp)
      rw [hcore.lens q (by simp)] at this
      omega
  have hpages := hshort.2
  simp only [Miniheap.miniheapAlloc, if_neg (show ¬ 0 &&& sub32 0 1 ≠ 0 by decide),
    Miniheap.allocTry, hfind, Miniheap.heapGrow, Option.bind_eq_bind, Option.bind_some, ne_eq,
    not_true_eq_false, if_false]
  rcases pageAlloc_cases c
    (rounddown (u64 (allocSize c size 0 + (pageSize - 1))) pageSize / pageSize) s with
    ⟨answer, hp⟩ | ⟨p, hf, hp⟩
  · rw [hp]
    exact ⟨answer, rfl⟩
  · rw [hp] at hpages
    have := hf.2.1
    simp only at hpages
    omega

/-- A size that is no larger than a block can be served, or memory is short. -/
theorem Inv.fits_or_short (h : Inv c B s) (hb : b ∈ B) (hsize : size ≤ b.size) :
    Fits c size 0 ∨ Short c size s := by
  obtain ⟨F, hcore, hrem⟩ := h
  have hok := hcore.blocks b hb
  obtain ⟨hstart, hstop⟩ := And.intro hok.start hok.stop
  have hmem : b.range ∈ F ++ [] ++ B.map Block.range := by simp [List.mem_map_of_mem hb]
  obtain ⟨h24, hchunk8, hlen8⟩ : 24 ≤ b.len ∧ b.chunk % 8 = 0 ∧ b.len % 8 = 0 := hcore.piece _ hmem
  have hbounds := hcore.bounds hmem
  simp only [Block.range] at hbounds
  have hneed : need c size 0 = (max (size + c.sizeofAllocStructBegin) 24 + 7) / 8 * 8 := by
    rw [need, if_neg (Nat.lt_irrefl 0)]
    rfl
  have hle : need c size 0 ≤ b.len := by
    rw [hneed]
    omega
  by_cases hf : Fits c size 0
  · exact .inl hf
  · -- next to a block that long there is no chunk, and the pages for another are too many
    refine .inr ?_
    simp only [Fits, sizeofFreeHeapChunk, not_lt] at hf
    have hF : F = [] := by
      refine List.eq_nil_iff_forall_not_mem.2 fun q hq => ?_
      have hqb := hcore.bounds (q := q) (by simp [hq])
      have hq24 : 24 ≤ q.2 := (hcore.piece q (by simp [hq])).1
      have hapart := (List.pairwise_append.1 hcore.apart).2.2 q (by simp [hq]) b.range
        (List.mem_map_of_mem hb)
      rcases hapart with h | h <;> simp only [Block.range] at h <;> omega
    have hsize : allocSize c size 0 = need c size 0 := by
      have h₁ : u64 (size + c.sizeofAllocStructBegin) = size + c.sizeofAllocStructBegin :=
        u64_of_lt (by omega)
      have h₂ : (if size + c.sizeofAllocStructBegin < 24 then 24 else
          size + c.sizeofAllocStructBegin) = max (size + c.sizeofAllocStructBegin) 24 := by
        split_ifs <;> omega
      have h₃ : u64 (max (size + c.sizeofAllocStructBegin) 24 + 7) =
          max (size + c.sizeofAllocStructBegin) 24 + 7 := u64_of_lt (by omega)
      simp only [allocSize, rounddown, sizeofFreeHeapChunk, h₁, h₂, h₃, if_neg (Nat.lt_irrefl 0),
        hneed]
    refine ⟨by simp [hcore.freeList, hF], ?_⟩
    have hpages : rounddown (u64 (allocSize c size 0 + (pageSize - 1))) pageSize / pageSize = 0 := by
      rw [hsize, u64, rounddown, pageSize]
      omega
    rw [hpages]
    rcases pageAlloc_cases c 0 s with ⟨answer, hp⟩ | ⟨p, hfresh, -⟩
    · rw [hp]
    · exact absurd hfresh.1 (by simp)

/-- **A request that is small enough, or for which memory is short.** -/
theorem Inv.alloc_result (h : Inv c B s) (hcond : Fits c size 0 ∨ Short c size s) :
    ∃ ptr s', Miniheap.miniheapAlloc c size 0 s = some (ptr, s') ∧ Served c size 0 B ptr s' ∧
      (Short c size s → ptr = 0) ∧
      (∀ b ∈ B, ∀ a, b.chunk ≤ a ∧ a < b.chunk + b.len → s'.mem a = s.mem a) ∧
      (ptr = 0 → ∀ chunk ∈ s.freeList, s.chunkLen chunk < allocSize c size 0) := by
  by_cases hshort : Short c size s
  · obtain ⟨answer, hs⟩ := h.miniheapAlloc_short hshort
    exact ⟨0, _, hs, .inl ⟨rfl, h.answer answer⟩, fun _ => rfl, fun _ _ _ _ => rfl,
      fun _ => hshort.1⟩
  · have hw := hcond.resolve_right hshort
    obtain ⟨ptr, s', hs, hserved⟩ : ∃ ptr s', Miniheap.miniheapAlloc c size 0 s = some (ptr, s') ∧
        Served c size 0 B ptr s' := h.miniheapAlloc (by decide) hw
    obtain ⟨hmem, hnull⟩ := h.miniheapAlloc_mem hw hs
    exact ⟨ptr, s', hs, hserved, fun h => absurd h hshort, hmem, hnull⟩

/-- The bytes of a block whose words are left alone. -/
theorem Block.Ok.loadByte_eq (hok : b.Ok c s.mem)
    (hmem : ∀ a, b.chunk ≤ a ∧ a < b.chunk + b.len → s'.mem a = s.mem a) {i : ℕ} (hi : i < b.size) :
    s'.loadByte (b.ptr + i) = s.loadByte (b.ptr + i) := by
  obtain ⟨hstart, hstop⟩ := And.intro hok.start hok.stop
  have hword := hok.word
  exact Heap.loadByte_congr (hmem _ ⟨by omega, by omega⟩)

/-- Two blocks at one place are one. -/
theorem Inv.block_ext {d : Block} (h : Inv c B s) (hb : b ∈ B) (hd : d ∈ B) (hptr : b.ptr = d.ptr) :
    b = d := by
  obtain ⟨F, hcore, -⟩ := h
  by_contra hne
  have hapart : (B.map Block.range).Pairwise Apart := (List.pairwise_append.1 hcore.apart).2.1
  have : Std.Symm (fun b b' : Block => Apart b.range b'.range) := ⟨fun _ _ h => h.symm⟩
  have h16 := c.sixteen_le
  obtain ⟨hb₁, hb₂⟩ := And.intro (hcore.blocks b hb).start (hcore.blocks b hb).stop
  obtain ⟨hd₁, hd₂⟩ := And.intro (hcore.blocks d hd).start (hcore.blocks d hd).stop
  rcases (List.pairwise_map.1 hapart).forall hb hd hne with h | h <;>
    simp only [Block.range] at h <;> omega

end Blocks

/-! ### Sessions with both -/

/-- A call, with the answer of `page_alloc` to it. -/
inductive Call
  | op (op : Op)
  | calloc (n size : ℕ) (answer : Option ℕ)
  | realloc (ptr size : ℕ) (answer : Option ℕ)

/-- What a call leaves, what it returns, and the range that it has copied. -/
structure Result where
  session : Session
  ptr : ℕ
  read : Option (ℕ × ℕ)

/-- One call. -/
def Session.call (c : Config) (t : Session) : Call → Option Result
  | .op op => (t.step c op).map fun (t, ptr) => ⟨t, ptr, none⟩
  | .calloc n size answer =>
    (calloc c n size { t.heap with answer := answer }).map fun (ptr, s) =>
      ⟨⟨s, if ptr = 0 then t.live else ⟨ptr, u64 (n * size), 0⟩ :: t.live⟩, ptr, none⟩
  | .realloc ptr size answer =>
    (miniheapRealloc c ptr size { t.heap with answer := answer }).map fun m =>
      let live := if ptr ≠ 0 ∧ (size = 0 ∨ m.ptr ≠ 0) then t.live.eraseP fun r => r.ptr = ptr
        else t.live
      ⟨⟨m.heap, if m.ptr = 0 then live else ⟨m.ptr, size, 0⟩ :: live⟩, m.ptr, m.read⟩

/-- The calls that are looked at: a product that fits into the address space with its header, a
size that is no larger than the block; or any, if memory is short. -/
def Session.Sized (c : Config) (t : Session) : Call → Prop
  | .op op => t.Ok c op
  | .calloc n size answer =>
    Fits c (n * size) 0 ∨ Short c (u64 (n * size)) { t.heap with answer := answer }
  | .realloc ptr size answer =>
    (ptr = 0 ∧ Fits c size 0 ∨ ∃ r ∈ t.live, r.ptr = ptr ∧ size ≤ r.size) ∨
      (ptr = 0 ∨ ∃ r ∈ t.live, r.ptr = ptr) ∧ Short c size { t.heap with answer := answer }

instance (c : Config) (t : Session) : (call : Call) → Decidable (t.Sized c call)
  | .op op => inferInstanceAs (Decidable (t.Ok c op))
  | .calloc .. => inferInstanceAs (Decidable (_ ∨ _))
  | .realloc .. => inferInstanceAs (Decidable ((_ ∧ _ ∨ ∃ r ∈ t.live, _ ∧ _) ∨ (_ ∨ _) ∧ _))

/-- **What `calloc` and `realloc` owe.**  `calloc`: `NULL`, or a block of at least the product,
of zeros.  `realloc` of a block: nothing is read outside of it, and a size of 0 frees it; another
gives `NULL` only if no chunk is long enough, the block being live as it was, or a block that
starts like the old one. -/
def Kept (c : Config) (t : Session) (call : Call) (r : Result) : Prop :=
  match call with
  | .op _ => True
  | .calloc n size _ =>
    r.ptr = 0 ∧ r.session.live = t.live ∨
      ∃ new ∈ r.session.live, new.ptr = r.ptr ∧ n * size ≤ new.size ∧
        ∀ i < n * size, r.session.heap.loadByte (r.ptr + i) = 0
  | .realloc ptr size _ =>
    ∀ old ∈ t.live, old.ptr = ptr →
      (∀ range ∈ r.read, range.1 = ptr ∧ range.2 ≤ old.size) ∧
      if size = 0 then r.ptr = 0 ∧ r.session.live = t.live.eraseP fun r => r.ptr = ptr
      else
        (r.ptr = 0 ∧ r.session.live = t.live ∧
          (∀ chunk ∈ t.heap.freeList, t.heap.chunkLen chunk < allocSize c size 0) ∧
          ∀ i < old.size, r.session.heap.loadByte (ptr + i) = t.heap.loadByte (ptr + i)) ∨
        ∃ new ∈ r.session.live, new.ptr = r.ptr ∧ new.size = size ∧
          ∀ i < min old.size size,
            r.session.heap.loadByte (r.ptr + i) = t.heap.loadByte (ptr + i)

section Calls

variable {c : Config} {t : Session}

variable {answer : Option ℕ}

theorem Tracked.calloc (h : Tracked c t) {n size : ℕ}
    (hok : t.Sized c (.calloc n size answer)) : ∃ r, t.call c (.calloc n size answer) = some r ∧
      Tracked c r.session ∧ Kept c t (.calloc n size answer) r := by
  obtain ⟨B, hinv, hlive⟩ := h
  have hfits (hf : Fits c (n * size) 0) : u64 (n * size) = n * size := by
    have h16 := c.sixteen_le
    simp only [Fits, need, sizeofFreeHeapChunk] at hf
    exact u64_of_lt (by omega)
  have hcond : Fits c (u64 (n * size)) 0 ∨
      Short c (u64 (n * size)) { t.heap with answer := answer } :=
    hok.imp_left fun hf => by rwa [hfits hf]
  obtain ⟨ptr, s, hs, hserved, hshort, -⟩ := (hinv.answer answer).alloc_result hcond
  simp only [Session.call, Miniheap.calloc, hs, Option.bind_eq_bind, Option.bind_some,
    Option.map_some]
  rcases hserved with ⟨rfl, hinv'⟩ | ⟨hpos, b, rfl, hsize, halign, hinv'⟩
  · exact ⟨_, rfl, ⟨B, hinv', hlive⟩, .inl ⟨rfl, rfl⟩⟩
  · have hf : Fits c (n * size) 0 := hok.resolve_right fun h => hpos.ne' (hshort h)
    rw [hfits hf] at hsize
    simp only [if_neg hpos.ne', if_pos hpos.ne', hfits hf]
    refine ⟨_, rfl, ⟨b :: B, hinv'.memset List.mem_cons_self 0 _ hsize.ge, ?_⟩, .inr ?_⟩
    · rw [List.map_cons, ← hlive, Block.req, hsize, halign]
    · refine ⟨_, List.mem_cons_self, rfl, le_rfl, fun i hi => ?_⟩
      exact (Heap.loadByte_memset ..).trans
        (if_pos ⟨Nat.le_add_right .., Nat.add_lt_add_left hi _⟩)

theorem Tracked.realloc_null (h : Tracked c t) {size : ℕ}
    (hcond : Fits c size 0 ∨ Short c size { t.heap with answer := answer }) :
    ∃ r, t.call c (.realloc 0 size answer) = some r ∧ Tracked c r.session ∧
      Kept c t (.realloc 0 size answer) r := by
  obtain ⟨B, hinv, hlive⟩ := h
  have hno : ∀ old ∈ t.live, old.ptr ≠ 0 := by
    rw [hlive]
    rintro old hold
    obtain ⟨b, hb, rfl⟩ := List.mem_map.1 hold
    obtain ⟨F, hcore, -⟩ := hinv
    have := (hcore.blocks b hb).start
    have := c.sixteen_le
    show b.ptr ≠ 0
    omega
  obtain ⟨ptr, s, hs, hserved, -⟩ := (hinv.answer answer).alloc_result hcond
  simp only [Session.call, miniheapRealloc, hs, if_true, Option.map_some]
  refine ⟨_, rfl, ?_, fun old hold h0 => absurd h0 (hno old hold)⟩
  rcases hserved with ⟨rfl, hinv'⟩ | ⟨hpos, b, rfl, hsize, halign, hinv'⟩
  · exact ⟨B, hinv', by simpa using hlive⟩
  · exact ⟨b :: B, hinv', by simp [hpos.ne', hlive, Block.req, hsize, halign]⟩

/-- A `realloc` that shrinks the block or finds no memory; the old block is freed only if a new one
was found. -/
theorem Tracked.realloc (h : Tracked c t) {old : Req} (hold : old ∈ t.live) {size : ℕ}
    (hcond : size ≤ old.size ∨ Short c size { t.heap with answer := answer }) :
    ∃ r, t.call c (.realloc old.ptr size answer) = some r ∧ Tracked c r.session ∧
      Kept c t (.realloc old.ptr size answer) r := by
  obtain ⟨B, hinv, hlive⟩ := h
  have hinv₀ := hinv.answer answer
  -- the block, and the others
  obtain ⟨b, hb, rfl⟩ : ∃ b ∈ B, b.req = old := by
    rw [hlive] at hold
    exact List.mem_map.1 hold
  obtain ⟨b', B₁, B₂, -, hb', rfl, herase⟩ :=
    List.exists_of_eraseP (p := fun d : Block => d.ptr = b.ptr) hb (by simp)
  obtain rfl : b' = b := hinv.block_ext (by simp) hb (by simpa using hb')
  have herase' : (t.live.eraseP fun r => r.ptr = b'.req.ptr) = (B₁ ++ B₂).map Block.req := by
    rw [hlive, List.eraseP_map, ← herase]
    rfl
  have hsame : ∀ o ∈ t.live, o.ptr = b'.req.ptr → o = b'.req := by
    rw [hlive]
    rintro o ho hptr
    obtain ⟨d, hd, rfl⟩ := List.mem_map.1 ho
    rw [hinv.block_ext hd hb hptr]
  have hok : b'.Ok c t.heap.mem := by
    obtain ⟨F, hcore, -⟩ := hinv
    exact hcore.blocks b' hb
  have hpos : 0 < b'.ptr := by
    have := hok.start
    have := c.sixteen_le
    omega
  have hptr : b'.req.ptr = b'.ptr := rfl
  by_cases h0 : size = 0
  · subst h0
    obtain ⟨s, hs, hinv'⟩ := hinv₀.miniheapFree
    simp only [Session.call, miniheapRealloc, hptr, if_neg hpos.ne', if_true, hs, Option.map_some]
    refine ⟨_, rfl, ⟨B₁ ++ B₂, hinv', ?_⟩, fun o ho hp => ⟨by simp, rfl, ?_⟩⟩
    · rw [if_pos ⟨hpos.ne', .inl trivial⟩]
      exact herase'
    · exact if_pos ⟨hpos.ne', .inl trivial⟩
  · have hcond' : Fits c size 0 ∨ Short c size { t.heap with answer := answer } := by
      rcases hcond with hle | hshort
      · exact hinv₀.fits_or_short hb hle
      · exact .inr hshort
    obtain ⟨p, s₁, hs₁, hserved, hshort, hmem, hnull⟩ := hinv₀.alloc_result hcond'
    simp only [Session.call, miniheapRealloc, hptr, if_neg hpos.ne', if_neg h0, hs₁,
      Option.bind_eq_bind, Option.bind_some]
    rcases hserved with ⟨rfl, hinv₁⟩ | ⟨hp, d, rfl, hsize, halign, hinv₁⟩
    · -- the block stays
      simp only [if_true, Option.map_some, h0, ne_eq, not_true_eq_false, or_self, and_false,
        if_false]
      refine ⟨_, rfl, ⟨_, hinv₁, hlive⟩, fun o ho hp => ⟨by simp, ?_⟩⟩
      obtain rfl := hsame o ho hp
      rw [if_neg h0]
      exact .inl ⟨rfl, rfl, hnull rfl, fun i hi =>
        Block.Ok.loadByte_eq (s := { t.heap with answer := answer }) hok (hmem b' hb) hi⟩
    · -- the new block is apart from it, and filled before it is freed
      have hle : size ≤ b'.size := hcond.resolve_right fun h => hp.ne' (hshort h)
      have hinv₂ : Inv c ((d :: B₁) ++ b' :: B₂) (s₁.memcpy d.ptr b'.ptr size) :=
        hinv₁.memcpy List.mem_cons_self b'.ptr size hsize.ge
      obtain ⟨s₃, hs₃, hinv₃⟩ := hinv₂.miniheapFree
      have hmem₃ : ∀ a, d.chunk ≤ a ∧ a < d.chunk + d.len →
          s₃.mem a = (s₁.memcpy d.ptr b'.ptr size).mem a := fun a ha =>
        hinv₂.miniheapFree_mem hs₃ (by simp) ha
      have hdisjoint : d.ptr + size ≤ b'.ptr ∨ b'.ptr + size ≤ d.ptr := by
        obtain ⟨F, hcore, -⟩ := hinv₁
        have hranges := (List.pairwise_append.1 hcore.apart).2.1
        rw [List.map_cons, List.pairwise_cons] at hranges
        have hd := hcore.blocks d List.mem_cons_self
        obtain ⟨h₁, h₂⟩ := And.intro hd.start hd.stop
        obtain ⟨h₃, h₄⟩ := And.intro hok.start hok.stop
        rcases hranges.1 b'.range (List.mem_map_of_mem hb) with h | h <;>
          simp only [Block.range] at h <;> omega
      have hdok : d.Ok c (s₁.memcpy d.ptr b'.ptr size).mem := by
        obtain ⟨F, hcore, -⟩ := hinv₂
        exact hcore.blocks d List.mem_cons_self
      simp only [if_neg hp.ne', hs₃, Option.bind_some, Option.map_some]
      refine ⟨_, rfl, ⟨d :: B₁ ++ B₂, hinv₃, ?_⟩, fun o ho hp' => ?_⟩
      · have hreq : d.req = ⟨d.ptr, size, 0⟩ := by rw [Block.req, hsize, halign]
        rw [if_pos ⟨hpos.ne', .inr hp.ne'⟩, ← hptr, herase', List.cons_append, List.map_cons, hreq]
      · obtain rfl := hsame o ho hp'
        rw [if_neg h0]
        refine ⟨?_, .inr ⟨_, List.mem_cons_self, rfl, rfl, fun i hi => ?_⟩⟩
        · rintro range hrange
          cases hrange
          exact ⟨rfl, hle⟩
        · have hi' : i < size := by omega
          have hi'' : i < b'.size := by omega
          show s₃.loadByte (d.ptr + i) = t.heap.loadByte (b'.ptr + i)
          rw [Block.Ok.loadByte_eq hdok hmem₃ (hsize ▸ hi'), Heap.loadByte_memcpy _ _ hdisjoint,
            if_pos ⟨by omega, by omega⟩, Nat.add_sub_cancel_left]
          exact Block.Ok.loadByte_eq (s := { t.heap with answer := answer }) hok (hmem b' hb) hi''

/-- **One call.** -/
theorem Tracked.call (h : Tracked c t) {call : Call} (hok : t.Sized c call) :
    ∃ r, t.call c call = some r ∧ Tracked c r.session ∧ Kept c t call r := by
  cases call with
  | op op =>
    obtain ⟨t', ht', htracked⟩ := h.step hok
    obtain ⟨⟨t'', ptr⟩, hs, rfl⟩ := Option.map_eq_some_iff.1 ht'
    exact ⟨⟨t'', ptr, none⟩, by simp [Session.call, hs], htracked, trivial⟩
  | calloc n size answer => exact h.calloc hok
  | realloc ptr size answer =>
    rcases hok with (⟨rfl, hf⟩ | ⟨r, hr, rfl, hle⟩) | ⟨rfl | ⟨r, hr, rfl⟩, hshort⟩
    · exact h.realloc_null (.inl hf)
    · exact h.realloc hr (.inl hle)
    · exact h.realloc_null (.inr hshort)
    · exact h.realloc hr (.inr hshort)

/-- The session after a call. -/
def Session.after (c : Config) (t : Session) (call : Call) : Option Session :=
  (t.call c call).map Result.session

end Calls

/-- **What `calloc` and `realloc` owe is met by every call in every state reached.** -/
theorem calloc_realloc_kept (c : Config) (mem : ℕ → ℕ) (ptr len : ℕ) (hinit : InitOk c ptr len)
    (calls : List Call) (hsized : ∀ s₀, miniheapInit c mem ptr len = some s₀ →
      Machine.Along (Session.after c) (Session.Sized c) ⟨s₀, []⟩ calls) :
    ∃ s₀ t, miniheapInit c mem ptr len = some s₀ ∧
      Machine.run (Session.after c) ⟨s₀, []⟩ calls = some t ∧ Sound c t ∧ ∀ call, t.Sized c call →
        ∃ r, t.call c call = some r ∧ Sound c r.session ∧ Kept c t call r := by
  obtain ⟨s₀, hs₀, htracked⟩ := tracked_init mem hinit
  have hstep : ∀ t call, Tracked c t → t.Sized c call →
      ∃ t', Session.after c t call = some t' ∧ Tracked c t' := by
    intro t call h hok
    obtain ⟨r, hr, htracked, -⟩ := h.call hok
    exact ⟨r.session, by rw [Session.after, hr]; rfl, htracked⟩
  have hkeep : ∀ t call t', Tracked c t → t.Sized c call → Session.after c t call = some t' →
      Tracked c t' := by
    intro t call t' h hok hs
    obtain ⟨t'', hs', h'⟩ := hstep t call h hok
    exact Option.some.inj (hs.symm.trans hs') ▸ h'
  obtain ⟨t, ht⟩ := (hsized s₀ hs₀).run_isSome hstep htracked
  have hreached := Machine.run_inv_along hkeep calls _ t htracked (hsized s₀ hs₀) ht
  refine ⟨s₀, t, hs₀, ht, hreached.sound, fun call hok => ?_⟩
  obtain ⟨r, hr, hafter, hkept⟩ := hreached.call hok
  exact ⟨r, hr, hafter.sound, hkept⟩

/-- Twelve bytes in a debug build, made shorter. -/
theorem calloc_realloc_kept_twelve : ∃ s₀ t,
    miniheapInit ⟨true, 2 ^ 16⟩ (fun _ => 1) (2 ^ 20) 4096 = some s₀ ∧
    Machine.run (Session.after ⟨true, 2 ^ 16⟩) ⟨s₀, []⟩
      [.calloc 3 4 none, .realloc (2 ^ 20 + 24) 5 none, .calloc 1 8000 none] = some t ∧
    Sound ⟨true, 2 ^ 16⟩ t ∧ ∀ call, t.Sized ⟨true, 2 ^ 16⟩ call →
      ∃ r, t.call ⟨true, 2 ^ 16⟩ call = some r ∧ Sound ⟨true, 2 ^ 16⟩ r.session ∧
        Kept ⟨true, 2 ^ 16⟩ t call r := by
  refine calloc_realloc_kept _ _ _ _ (by decide) _ ?_
  show ∀ s₀ ∈ miniheapInit ⟨true, 2 ^ 16⟩ (fun _ => 1) (2 ^ 20) 4096, _
  decide +kernel

/-- A product of `2 ^ 64` gives a block with no room; and 100 bytes are copied from a block
of 12 that grows. -/
theorem calloc_realloc_broken : ∃ s₀ r t t',
    miniheapInit ⟨true, 2 ^ 16⟩ (fun _ => 1) (2 ^ 20) 4096 = some s₀ ∧
    Session.call ⟨true, 2 ^ 16⟩ ⟨s₀, []⟩ (.calloc (2 ^ 32) (2 ^ 32) none) = some r ∧
    r.ptr = 2 ^ 20 + 24 ∧ r.session.heap.blockAt r.ptr = (2 ^ 20, 24) ∧
    ¬ Kept ⟨true, 2 ^ 16⟩ ⟨s₀, []⟩ (.calloc (2 ^ 32) (2 ^ 32) none) r ∧
    Session.call ⟨true, 2 ^ 16⟩ ⟨s₀, []⟩ (.calloc 3 4 none) = some t ∧
    t.session.live = [⟨2 ^ 20 + 24, 12, 0⟩] ∧
    t.session.call ⟨true, 2 ^ 16⟩ (.realloc (2 ^ 20 + 24) 100 none) = some t' ∧
    t'.read = some (2 ^ 20 + 24, 100) ∧
    ¬ Kept ⟨true, 2 ^ 16⟩ t.session (.realloc (2 ^ 20 + 24) 100 none) t' := by
  refine ⟨_, _, _, _, rfl, rfl, by decide, by decide, ?_, rfl, by decide, rfl, by decide, ?_⟩
  · rintro (⟨hnull, -⟩ | ⟨new, hnew, -, hle, -⟩)
    · revert hnull
      decide
    · obtain rfl := List.mem_singleton.1 hnew
      revert hle
      decide
  · intro hkept
    have hread := (hkept ⟨2 ^ 20 + 24, 12, 0⟩ List.mem_cons_self rfl).1 (2 ^ 20 + 24, 100) rfl
    exact absurd hread.2 (by decide)

end Miniheap
end LittleKernel
