/-
# Sessions with the mini heap

Any sequence of calls of `lib/heap/miniheap/miniheap.c` from `miniheap_init` on, together with
the writes of the callers to their blocks and of anyone to memory that the heap does not hold.
After each of them the free chunks and the live blocks tile the memory that is held.
-/

import LittleKernel.Miniheap.Calls

namespace LittleKernel
namespace Miniheap

open Word Ranges

/-- A request that was served and is not given up yet. -/
structure Req where
  ptr : ℕ
  size : ℕ
  alignment : ℕ
  deriving DecidableEq

/-- The heap and the requests that are open. -/
structure Session where
  heap : Heap
  live : List Req

/-- A call, with the answer of `page_alloc` to it, or a write of one word. -/
inductive Op
  | alloc (size alignment : ℕ) (answer : Option ℕ)
  | free (ptr : ℕ)
  | trim
  | store (a v : ℕ)

/-- One call and what it returns. -/
def Session.step (c : Config) (t : Session) : Op → Option (Session × ℕ)
  | .alloc size alignment answer =>
    (miniheapAlloc c size alignment { t.heap with answer := answer }).map fun (ptr, s) =>
      (⟨s, if ptr = 0 then t.live else ⟨ptr, size, alignment⟩ :: t.live⟩, ptr)
  | .free ptr => (miniheapFree c ptr t.heap).map fun s =>
    (⟨s, t.live.eraseP fun r => r.ptr = ptr⟩, 0)
  | .trim => (miniheapTrim c t.heap).map fun s => (⟨s, t.live⟩, 0)
  | .store a v => some (⟨t.heap.store a v, t.live⟩, 0)

/-- What a caller owes: sizes that do not wrap, blocks that are live, and words of a block or
of memory that is not the heap's. -/
def Session.Ok (c : Config) (t : Session) : Op → Prop
  | .alloc size alignment _ => alignment < 2 ^ 32 ∧ NoWrap c size alignment
  | .free ptr => ptr = 0 ∨ ∃ r ∈ t.live, r.ptr = ptr
  | .trim => True
  | .store a _ => a % 8 = 0 ∧
      ((∃ r ∈ t.live, r.ptr ≤ a ∧ a < r.ptr + r.size) ∨ cover t.heap.held a = 0)

instance (c : Config) (t : Session) : (op : Op) → Decidable (t.Ok c op)
  | .alloc .. => inferInstanceAs (Decidable (_ ∧ _))
  | .free _ => inferInstanceAs (Decidable (_ ∨ _))
  | .trim => inferInstanceAs (Decidable True)
  | .store .. => inferInstanceAs (Decidable (_ ∧ (_ ∨ _)))

/-- The range that `miniheap_init` is given: none, or one that can be a chunk and is not
`theheap`'s. -/
def InitOk (c : Config) (ptr len : ℕ) : Prop :=
  len = 0 ∨ Piece (ptr, len) ∧ 0 < ptr ∧ ptr + len ≤ 2 ^ 64 ∧ (ptr + len < c.listHead ∨ c.listHead ≤ ptr)

instance (c : Config) (ptr len : ℕ) : Decidable (InitOk c ptr len) :=
  inferInstanceAs (Decidable (_ ∨ (_ ∧ _ ∧ _) ∧ _ ∧ _ ∧ _))

/-! ### What holds between two calls -/

/-- The chunks of the free list. -/
def Heap.chunks (s : Heap) : List (ℕ × ℕ) := s.freeList.map fun chunk => (chunk, s.chunkLen chunk)

/-- The range of the block at `ptr`, as its header has it. -/
def Heap.blockAt (s : Heap) (ptr : ℕ) : ℕ × ℕ := (s.mem (ptr - 16), s.mem (ptr - 8))

/-- The ranges of the live blocks. -/
def Session.blocks (t : Session) : List (ℕ × ℕ) := t.live.map fun r => t.heap.blockAt r.ptr

/-- The free list is in order, its chunks do not touch and can hold their headers; chunks and
live blocks tile the memory that is held; `remaining` is what the chunks add up to; and every
payload is where and as long as it was asked for. -/
structure Sound (c : Config) (t : Session) : Prop where
  sorted : t.heap.freeList.Pairwise (· < ·)
  gapped : Gapped t.heap.chunks
  sizes : ∀ q ∈ t.heap.chunks, q.2 % 8 = 0 ∧ sizeofFreeHeapChunk ≤ q.2
  apart : (t.heap.chunks ++ t.blocks).Pairwise Apart
  tiles : addresses (t.heap.chunks ++ t.blocks) = addresses t.heap.held
  remaining : t.heap.remaining = (t.heap.chunks.map Prod.snd).sum
  payloads : ∀ r ∈ t.live, (0 < r.alignment → r.alignment ∣ r.ptr) ∧
    (t.heap.blockAt r.ptr).1 + c.sizeofAllocStructBegin ≤ r.ptr ∧
    r.ptr + r.size ≤ (t.heap.blockAt r.ptr).1 + (t.heap.blockAt r.ptr).2

/-- The request of a block. -/
def Block.req (b : Block) : Req := ⟨b.ptr, b.size, b.alignment⟩

/-- The open requests are those of the blocks of a layout. -/
def Tracked (c : Config) (t : Session) : Prop := ∃ B, Inv c B t.heap ∧ t.live = B.map Block.req

section Steps

variable {c : Config} {t : Session}

theorem Tracked.sound (h : Tracked c t) : Sound c t := by
  obtain ⟨B, ⟨F, hcore, hrem⟩, hlive⟩ := h
  have hchunks : t.heap.chunks = F := by
    rw [Heap.chunks, hcore.freeList, List.map_map]
    refine (List.map_congr_left fun q hq => ?_).trans (List.map_id F)
    exact Prod.ext rfl (hcore.lens q hq)
  have hblocks : t.blocks = B.map Block.range := by
    rw [Session.blocks, hlive, List.map_map]
    refine List.map_congr_left fun b hb => ?_
    exact Prod.ext (hcore.blocks b hb).chunk (hcore.blocks b hb).len
  have hpiece : ∀ q ∈ F, Piece q := fun q hq => hcore.piece q (by simp [hq])
  have hapart := hcore.apart
  have hcover := hcore.cover
  simp only [List.append_nil] at hapart hcover
  refine ⟨?_, hchunks ▸ hcore.gapped, fun q hq => ?_, ?_, ?_, hchunks ▸ hrem, fun r hr => ?_⟩
  · rw [hcore.freeList]
    refine List.pairwise_map.2 (hcore.gapped.imp fun hgap => ?_)
    omega
  · have := hpiece q (hchunks ▸ hq)
    exact ⟨this.2.2, this.1⟩
  · rw [hchunks, hblocks]
    exact hapart
  · ext a
    rw [hchunks, hblocks, mem_addresses, mem_addresses, ← cover_pos, ← cover_pos, hcover a]
  · rw [hlive] at hr
    obtain ⟨b, hb, rfl⟩ := List.mem_map.1 hr
    have hok := hcore.blocks b hb
    exact ⟨hok.aligned, by simpa [Heap.blockAt, Block.req, hok.chunk] using hok.start,
      by simpa [Heap.blockAt, Block.req, hok.chunk, hok.len] using hok.stop⟩

/-- **One call keeps the layout.** -/
theorem Tracked.step (h : Tracked c t) {op : Op} (hok : t.Ok c op) :
    ∃ t', (t.step c op).map Prod.fst = some t' ∧ Tracked c t' := by
  obtain ⟨B, hinv, hlive⟩ := h
  cases op with
  | alloc size alignment answer =>
    obtain ⟨ptr, s', hs', hserved⟩ := (hinv.answer answer).miniheapAlloc hok.1 hok.2.fits
    simp only [Session.step, hs', Option.map_some]
    rcases hserved with ⟨rfl, hinv'⟩ | ⟨hpos, b, rfl, rfl, rfl, hinv'⟩
    · exact ⟨_, rfl, B, hinv', by simpa using hlive⟩
    · exact ⟨_, rfl, b :: B, hinv', by simp [hpos.ne', hlive, Block.req]⟩
  | free ptr =>
    by_cases h0 : ∃ r ∈ t.live, r.ptr = ptr
    · obtain ⟨r, hr, hrp⟩ := h0
      have hlast : ∃ b ∈ B, b.ptr = ptr := by
        rw [hlive] at hr
        obtain ⟨b, hb, rfl⟩ := List.mem_map.1 hr
        exact ⟨b, hb, hrp⟩
      obtain ⟨b, hb, hbp⟩ := hlast
      obtain ⟨b', B₁, B₂, -, hb', rfl, herase⟩ :=
        List.exists_of_eraseP (p := fun b : Block => b.ptr = ptr) hb (by simpa using hbp)
      obtain rfl : b'.ptr = ptr := by simpa using hb'
      obtain ⟨s', hs', hinv'⟩ := hinv.miniheapFree
      simp only [Session.step, hs', Option.map_some]
      refine ⟨_, rfl, B₁ ++ B₂, hinv', ?_⟩
      rw [hlive, List.eraseP_map, ← herase]
      rfl
    · obtain rfl : ptr = 0 := hok.resolve_right h0
      refine ⟨t, ?_, B, hinv, hlive⟩
      have hnone : t.live.eraseP (fun r => r.ptr = 0) = t.live :=
        List.eraseP_of_forall_not fun r hr => by simpa using fun e => h0 ⟨r, hr, e⟩
      simp [Session.step, miniheapFree, hnone]
  | trim =>
    obtain ⟨s', hs', hinv'⟩ := hinv.miniheapTrim
    exact ⟨⟨s', t.live⟩, by simp [Session.step, hs'], B, hinv', hlive⟩
  | store a v =>
    obtain ⟨F, hcore, hrem⟩ := hinv
    refine ⟨⟨t.heap.store a v, t.live⟩, rfl, B, ⟨F, ?_, hrem⟩, hlive⟩
    rcases hok.2 with ⟨r, hr, hle, hlt⟩ | hout
    · rw [hlive] at hr
      obtain ⟨b, hb, rfl⟩ := List.mem_map.1 hr
      exact hcore.store_payload hb hle hlt v
    · exact hcore.store_outside hout v

/-- The layout after `miniheap_init`. -/
theorem tracked_init (mem : ℕ → ℕ) {ptr len : ℕ} (h : InitOk c ptr len) :
    ∃ s, miniheapInit c mem ptr len = some s ∧ Tracked c ⟨s, []⟩ := by
  have hempty : ∀ base len, Core c [] [] [] ⟨mem, base, len, 0, 0, [], none, []⟩ := fun _ _ =>
    ⟨rfl, by simp, .nil, by simp, by simp, fun _ => rfl, fun _ => by simp, fun _ h => by simp at h⟩
  rw [miniheapInit]
  rcases Nat.eq_zero_or_pos len with rfl | hlen
  · exact ⟨_, rfl, [], ⟨[], hempty ptr 0, rfl⟩, rfl⟩
  · obtain ⟨hpiece, hpos, hend, hhead⟩ := h.resolve_left hlen.ne'
    have hgain := (hempty ptr len).gain hpiece hpos hend hhead (by simp)
    obtain ⟨s₁, r, s₂, h₁, h₂, hinv⟩ := hgain.free rfl
    simp only [if_pos hlen, h₁, h₂, Option.bind_eq_bind, Option.bind_some]
    exact ⟨s₂, rfl, [], hinv, rfl⟩

end Steps

/-- **The heap is tiled after every sequence of calls.** -/
theorem chunks_and_blocks_tile (c : Config) (mem : ℕ → ℕ) (ptr len : ℕ) (hinit : InitOk c ptr len)
    (ops : List Op) (hok : ∀ s₀, miniheapInit c mem ptr len = some s₀ →
      Machine.Along (fun t op => (Session.step c t op).map Prod.fst) (Session.Ok c) ⟨s₀, []⟩ ops) :
    ∃ s₀ t, miniheapInit c mem ptr len = some s₀ ∧
      Machine.run (fun t op => (Session.step c t op).map Prod.fst) ⟨s₀, []⟩ ops = some t ∧
      Sound c t := by
  obtain ⟨s₀, hs₀, htracked⟩ := tracked_init mem hinit
  have hstep : ∀ t op, Tracked c t → t.Ok c op →
      ∃ t', (Session.step c t op).map Prod.fst = some t' ∧ Tracked c t' := fun _ _ h => h.step
  obtain ⟨t, ht⟩ := (hok s₀ hs₀).run_isSome hstep htracked
  have hkeep : ∀ t op t', Tracked c t → t.Ok c op →
      (Session.step c t op).map Prod.fst = some t' → Tracked c t' := by
    intro t op t' h hop hs
    obtain ⟨t'', hs', h'⟩ := h.step hop
    exact Option.some.inj (hs.symm.trans hs') ▸ h'
  exact ⟨s₀, t, hs₀, ht,
    (Machine.run_inv_along hkeep ops _ t htracked (hok s₀ hs₀) ht).sound⟩

/-- A debug build with one page: the second request makes the heap grow next to it, and
what is left behind it goes back to the page allocator. -/
theorem chunks_and_blocks_tile_grown : ∃ s₀ t,
    miniheapInit ⟨true, 2 ^ 16⟩ (fun _ => 0) (2 ^ 20) 4096 = some s₀ ∧
    Machine.run (fun t op => (Session.step ⟨true, 2 ^ 16⟩ t op).map Prod.fst) ⟨s₀, []⟩
      [.alloc 100 0 none, .alloc 10000 64 (some (2 ^ 20 + 4096)), .store (2 ^ 20 + 192) 7,
        .alloc 8192 0 none, .free (2 ^ 20 + 24), .trim] = some t ∧ Sound ⟨true, 2 ^ 16⟩ t := by
  refine chunks_and_blocks_tile _ _ _ _ (by decide) _ ?_
  show ∀ s₀ ∈ miniheapInit ⟨true, 2 ^ 16⟩ (fun _ => 0) (2 ^ 20) 4096, _
  decide +kernel

end Miniheap
end LittleKernel
