/-
# The layout of the mini heap

Between two writes of `lib/heap/miniheap/miniheap.c` the memory the heap holds is cut up into
the chunks `F` of the free list, the blocks `B` that callers have, and the pieces `X` that are
on the way from one to the other.  `Core` says so, and that the list is in order with gaps
between its chunks and that every header is what it should be.  Each lemma of `Core` is one
move: a piece is taken off the list, split, joined, handed out, given up, got from or given
back to the page allocator, or put back on the list.
-/

import LittleKernel.Miniheap.Basic

namespace LittleKernel
namespace Miniheap

open Word Ranges Function

/-- A block that a caller has: the chunk it was made from, and what was asked for. -/
structure Block where
  chunk : ℕ
  len : ℕ
  ptr : ℕ
  size : ℕ
  alignment : ℕ
  deriving DecidableEq

namespace Block

def range (b : Block) : ℕ × ℕ := (b.chunk, b.len)

/-- The header of the block and the place of its payload. -/
structure Ok (c : Config) (mem : ℕ → ℕ) (b : Block) : Prop where
  chunk : mem (b.ptr - 16) = b.chunk
  len : mem (b.ptr - 8) = b.len
  magic : c.debug = true → mem (b.ptr - 24) = heapMagic
  start : b.chunk + c.sizeofAllocStructBegin ≤ b.ptr
  stop : b.ptr + b.size ≤ b.chunk + b.len
  word : b.ptr % 8 = 0
  aligned : 0 < b.alignment → b.alignment ∣ b.ptr

end Block

theorem Config.sixteen_le (c : Config) : 16 ≤ c.sizeofAllocStructBegin := by
  rw [sizeofAllocStructBegin]
  split_ifs <;> omega

theorem Config.of_debug {c : Config} (h : c.debug = true) : c.sizeofAllocStructBegin = 24 := by
  rw [sizeofAllocStructBegin, if_pos h]

theorem Block.Ok.congr {c : Config} {mem mem' : ℕ → ℕ} {b : Block} (h : b.Ok c mem)
    (hmem : ∀ a, b.chunk ≤ a → a < b.ptr → mem' a = mem a) : b.Ok c mem' where
  chunk := by
    have := c.sixteen_le
    have := h.start
    rw [hmem _ (by omega) (by omega), h.chunk]
  len := by
    have := c.sixteen_le
    have := h.start
    rw [hmem _ (by omega) (by omega), h.len]
  magic hd := by
    have := Config.of_debug hd
    have := h.start
    rw [hmem _ (by omega) (by omega), h.magic hd]
  start := h.start
  stop := h.stop
  word := h.word
  aligned := h.aligned

/-- A range that can be a chunk. -/
def Piece (q : ℕ × ℕ) : Prop := sizeofFreeHeapChunk ≤ q.2 ∧ q.1 % 8 = 0 ∧ q.2 % 8 = 0

/-- The chunks `F` of the list, the loose pieces `X` and the blocks `B` make up the memory
that is held. -/
structure Core (c : Config) (F X : List (ℕ × ℕ)) (B : List Block) (s : Heap) : Prop where
  freeList : s.freeList = F.map Prod.fst
  lens : ∀ q ∈ F, s.chunkLen q.1 = q.2
  gapped : Gapped F
  piece : ∀ q ∈ F ++ X ++ B.map Block.range, Piece q
  blocks : ∀ b ∈ B, b.Ok c s.mem
  cover : ∀ a, cover (F ++ X ++ B.map Block.range) a = cover s.held a
  once : ∀ a, Ranges.cover s.held a ≤ 1
  room : ∀ a, 0 < Ranges.cover s.held a → 0 < a ∧ a < 2 ^ 64 ∧ a + 1 ≠ c.listHead

namespace Core

variable {c : Config} {F X : List (ℕ × ℕ)} {B : List Block} {s s' : Heap} {q : ℕ × ℕ}

/-! ### What it says about the pieces -/

theorem apart (h : Core c F X B s) : (F ++ X ++ B.map Block.range).Pairwise Apart :=
  pairwise_apart_of_cover
    (fun q hq => by
      have := (h.piece q hq).1
      simp only [sizeofFreeHeapChunk] at this
      omega)
    fun a => h.cover a ▸ h.once a

theorem bounds (h : Core c F X B s) (hq : q ∈ F ++ X ++ B.map Block.range) :
    0 < q.1 ∧ q.1 + q.2 ≤ 2 ^ 64 ∧ q.1 + q.2 ≠ c.listHead := by
  have hlen : 24 ≤ q.2 := (h.piece q hq).1
  have hin : ∀ a, q.1 ≤ a → a < q.1 + q.2 → 0 < a ∧ a < 2 ^ 64 ∧ a + 1 ≠ c.listHead :=
    fun a h₁ h₂ => h.room a (h.cover a ▸ cover_pos.2 ⟨q, hq, h₁, h₂⟩)
  have hfirst := hin q.1 le_rfl (by omega)
  have hlast := hin (q.1 + q.2 - 1) (by omega) (by omega)
  rw [Nat.sub_add_cancel (by omega)] at hlast
  exact ⟨hfirst.1, by omega, hlast.2.2⟩

/-- The lengths add up to less than the address space. -/
theorem sum_lt (h : Core c F X B s) : (F.map Prod.snd).sum + (X.map Prod.snd).sum < 2 ^ 64 := by
  have hsub : (F ++ X).Pairwise Apart := (List.pairwise_append.1 h.apart).1
  have hin : ∀ q ∈ F ++ X, 1 ≤ q.1 ∧ q.1 + q.2 ≤ 2 ^ 64 := fun q hq => by
    have := h.bounds (List.mem_append_left _ hq)
    omega
  have hsum := sum_le_of_apart hsub hin
  rw [List.map_append, List.sum_append] at hsum
  omega

/-! ### Writes -/

/-- A write that keeps what it should keep. -/
theorem congr (h : Core c F X B s) (hlist : s'.freeList = s.freeList) (hheld : s'.held = s.held)
    (hF : ∀ q ∈ F, s'.chunkLen q.1 = s.chunkLen q.1)
    (hB : ∀ b ∈ B, ∀ a, b.chunk ≤ a → a < b.ptr → s'.mem a = s.mem a) : Core c F X B s' where
  freeList := hlist.trans h.freeList
  lens q hq := (hF q hq).trans (h.lens q hq)
  gapped := h.gapped
  piece := h.piece
  blocks b hb := (h.blocks b hb).congr (hB b hb)
  cover := hheld ▸ h.cover
  once := hheld ▸ h.once
  room := hheld ▸ h.room

/-- A write into a loose piece. -/
theorem store_loose (h : Core c F X B s) (hq : q ∈ X) {a : ℕ} (h₁ : q.1 ≤ a)
    (h₂ : a < q.1 + q.2) (v : ℕ) : Core c F X B (s.store a v) := by
  obtain ⟨hFX, -, hFXB⟩ := List.pairwise_append.1 h.apart
  have hF := (List.pairwise_append.1 hFX).2.2
  refine h.congr rfl rfl (fun r hr => ?_) fun b hb e he he' => ?_
  · have hr24 : 24 ≤ r.2 := (h.piece r (by simp [hr])).1
    refine update_of_ne ?_ ..
    rcases hF r hr q hq with h | h <;> omega
  · have hstop := (h.blocks b hb).stop
    refine update_of_ne ?_ ..
    rcases hFXB q (List.mem_append_right _ hq) b.range (List.mem_map_of_mem hb) with h | h <;>
      simp only [Block.range] at h <;> omega

/-- A write into the payload of a block. -/
theorem store_payload (h : Core c F X B s) {b : Block} (hb : b ∈ B) {a : ℕ} (h₁ : b.ptr ≤ a)
    (h₂ : a < b.ptr + b.size) (v : ℕ) : Core c F X B (s.store a v) := by
  obtain ⟨hstart, hstop⟩ := And.intro (h.blocks b hb).start (h.blocks b hb).stop
  obtain ⟨-, hBB, hFXB⟩ := List.pairwise_append.1 h.apart
  refine h.congr rfl rfl (fun r hr => ?_) fun b' hb' e he he' => ?_
  · have hr24 : 24 ≤ r.2 := (h.piece r (by simp [hr])).1
    refine update_of_ne ?_ ..
    rcases hFXB r (List.mem_append_left _ hr) b.range (List.mem_map_of_mem hb) with h | h <;>
      simp only [Block.range] at h <;> omega
  · have hstop' := (h.blocks b' hb').stop
    refine update_of_ne ?_ ..
    rcases eq_or_ne b' b with rfl | hne
    · omega
    · have : Std.Symm (fun b b' : Block => Apart b.range b'.range) := ⟨fun _ _ h => h.symm⟩
      rcases (List.pairwise_map.1 hBB).forall hb hb' hne.symm with h | h <;>
        simp only [Block.range] at h <;> omega

/-- A write outside the memory that is held. -/
theorem store_outside (h : Core c F X B s) {a : ℕ} (ha : Ranges.cover s.held a = 0) (v : ℕ) :
    Core c F X B (s.store a v) := by
  have hout : ∀ q ∈ F ++ X ++ B.map Block.range, ¬(q.1 ≤ a ∧ a < q.1 + q.2) := fun q hq hin => by
    have := cover_pos.2 ⟨q, hq, hin⟩
    rw [h.cover, ha] at this
    omega
  refine h.congr rfl rfl (fun r hr => ?_) fun b hb e he he' => ?_
  · have hr24 : 24 ≤ r.2 := (h.piece r (by simp [hr])).1
    have := hout r (by simp [hr])
    exact update_of_ne (by omega) ..
  · have hstop := (h.blocks b hb).stop
    have := hout b.range (List.mem_append_right _ (List.mem_map_of_mem hb))
    simp only [Block.range] at this
    exact update_of_ne (by omega) ..

/-! ### Moves -/

/-- A chunk is taken off the list. -/
theorem take {A D : List (ℕ × ℕ)} (h : Core c (A ++ q :: D) X B s) :
    Core c (A ++ D) (q :: X) B { s with freeList := (A ++ D).map Prod.fst } where
  freeList := rfl
  lens r hr := h.lens r (by
    rcases List.mem_append.1 hr with hr | hr
    · exact List.mem_append_left _ hr
    · exact List.mem_append_right _ (List.mem_cons_of_mem _ hr))
  gapped := h.gapped.sublist (List.Sublist.append_left (List.sublist_cons_self _ _) _)
  piece r hr := h.piece r (by
    simp only [List.mem_append, List.mem_cons] at hr ⊢
    tauto)
  blocks := h.blocks
  cover a := by
    rw [← h.cover a]
    simp only [cover_append, cover_cons]
    omega
  once := h.once
  room := h.room

/-- A loose piece is put on the list, where it touches no chunk. -/
theorem put {A D : List (ℕ × ℕ)} (h : Core c (A ++ D) (q :: X) B s)
    (hlen : s.chunkLen q.1 = q.2) (hgap : Gapped (A ++ q :: D)) :
    Core c (A ++ q :: D) X B { s with freeList := (A ++ q :: D).map Prod.fst } where
  freeList := rfl
  lens r hr := by
    rcases List.mem_append.1 hr with hr | hr
    · exact h.lens r (List.mem_append_left _ hr)
    · rcases List.mem_cons.1 hr with rfl | hr
      · exact hlen
      · exact h.lens r (List.mem_append_right _ hr)
  gapped := hgap
  piece r hr := h.piece r (by
    simp only [List.mem_append, List.mem_cons] at hr ⊢
    tauto)
  blocks := h.blocks
  cover a := by
    rw [← h.cover a]
    simp only [cover_append, cover_cons]
    omega
  once := h.once
  room := h.room

/-- The order of the loose pieces does not matter. -/
theorem swap {r : ℕ × ℕ} (h : Core c F (q :: r :: X) B s) : Core c F (r :: q :: X) B s where
  freeList := h.freeList
  lens := h.lens
  gapped := h.gapped
  piece t ht := h.piece t (by
    simp only [List.mem_append, List.mem_cons] at ht ⊢
    tauto)
  blocks := h.blocks
  cover a := by
    rw [← h.cover a]
    simp only [cover_append, cover_cons]
    omega
  once := h.once
  room := h.room

/-- A loose piece is cut in two at `m`. -/
theorem split {p n m : ℕ} (h : Core c F ((p, n) :: X) B s) (h₁ : p + sizeofFreeHeapChunk ≤ m)
    (h₂ : m + sizeofFreeHeapChunk ≤ p + n) (hm : m % 8 = 0) :
    Core c F ((p, m - p) :: (m, p + n - m) :: X) B s where
  freeList := h.freeList
  lens := h.lens
  gapped := h.gapped
  piece r hr := by
    obtain ⟨-, hp, hn⟩ : Piece (p, n) := h.piece (p, n) (by simp)
    simp only at hp hn
    simp only [List.mem_append, List.mem_cons] at hr
    rcases hr with (hr | rfl | rfl | hr) | hr
    · exact h.piece r (by simp [hr])
    · exact ⟨Nat.le_sub_of_add_le' h₁, hp, by simp only; omega⟩
    · exact ⟨Nat.le_sub_of_add_le' h₂, hm, by simp only; omega⟩
    · exact h.piece r (by simp [hr])
    · exact h.piece r (by simp [hr])
  blocks := h.blocks
  cover a := by
    have hjoin := hits_join a p (m - p) (p + n - m)
    rw [show m - p + (p + n - m) = n by omega, Nat.add_sub_cancel' (by omega)] at hjoin
    rw [← h.cover a]
    simp only [cover_append, cover_cons, hjoin]
    omega
  once := h.once
  room := h.room

theorem handOut {b : Block} (h : Core c F (b.range :: X) B s) (hb : b.Ok c s.mem) :
    Core c F X (b :: B) s where
  freeList := h.freeList
  lens := h.lens
  gapped := h.gapped
  piece r hr := h.piece r (by
    simp only [List.map_cons, List.mem_append, List.mem_cons] at hr ⊢
    tauto)
  blocks b' hb' := by
    rcases List.mem_cons.1 hb' with rfl | hb'
    · exact hb
    · exact h.blocks b' hb'
  cover a := by
    rw [← h.cover a]
    simp only [List.map_cons, cover_append, cover_cons]
    omega
  once := h.once
  room := h.room

theorem giveUp {B₁ B₂ : List Block} {b : Block} (h : Core c F X (B₁ ++ b :: B₂) s) :
    Core c F (b.range :: X) (B₁ ++ B₂) s where
  freeList := h.freeList
  lens := h.lens
  gapped := h.gapped
  piece r hr := h.piece r (by
    simp only [List.map_append, List.map_cons, List.mem_append, List.mem_cons] at hr ⊢
    tauto)
  blocks b' hb' := h.blocks b' (by
    simp only [List.mem_append, List.mem_cons] at hb' ⊢
    tauto)
  cover a := by
    rw [← h.cover a]
    simp only [List.map_append, List.map_cons, cover_append, cover_cons]
    omega
  once := h.once
  room := h.room

theorem gain {p n : ℕ} (h : Core c F X B s) (hpiece : Piece (p, n)) (hp : 0 < p)
    (hend : p + n ≤ 2 ^ 64) (hhead : p + n < c.listHead ∨ c.listHead ≤ p)
    (hnew : ∀ q ∈ s.held, Apart (p, n) q) :
    Core c F ((p, n) :: X) B { s with held := (p, n) :: s.held } where
  freeList := h.freeList
  lens := h.lens
  gapped := h.gapped
  piece r hr := by
    simp only [List.mem_append, List.mem_cons] at hr
    rcases hr with (hr | rfl | hr) | hr
    · exact h.piece r (by simp [hr])
    · exact hpiece
    · exact h.piece r (by simp [hr])
    · exact h.piece r (by simp [hr])
  blocks := h.blocks
  cover a := by
    have := h.cover a
    simp only [cover_append, cover_cons] at this ⊢
    omega
  once a := by
    have honce := h.once a
    rw [cover_cons, hits]
    split_ifs with ha
    · rcases Nat.eq_zero_or_pos (Ranges.cover s.held a) with h0 | h0
      · omega
      · obtain ⟨q, hq, h₁, h₂⟩ := cover_pos.1 h0
        rcases hnew q hq with h | h <;> simp only at h ha <;> omega
    · omega
  room a ha := by
    rw [cover_cons, hits] at ha
    split_ifs at ha with hin
    · simp only at hin
      omega
    · exact h.room a (by omega)

theorem giveBack {p n : ℕ} (h : Core c F ((p, n) :: X) B s) :
    Core c F X B { s with held := s.held.flatMap (cut p n) } where
  freeList := h.freeList
  lens := h.lens
  gapped := h.gapped
  piece r hr := h.piece r (by
    simp only [List.mem_append, List.mem_cons] at hr ⊢
    tauto)
  blocks := h.blocks
  cover a := by
    have hcover := h.cover a
    have honce := h.once a
    rw [cover_flatMap_cut]
    simp only [cover_append, cover_cons, hits] at hcover ⊢
    split_ifs at hcover ⊢ <;> omega
  once a := by
    rw [cover_flatMap_cut]
    have := h.once a
    split_ifs <;> omega
  room a ha := by
    rw [cover_flatMap_cut] at ha
    split_ifs at ha
    · omega
    · exact h.room a ha

end Core
end Miniheap
end LittleKernel
