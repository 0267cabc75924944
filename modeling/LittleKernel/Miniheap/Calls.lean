/-
# The calls of the mini heap

What `heap_insert_free_chunk`, `heap_grow`, `miniheap_alloc`, `miniheap_free` and
`miniheap_trim` of `lib/heap/miniheap/miniheap.c` do to the layout: each comes back, without a
`DEBUG_ASSERT` that fails, and is a sequence of the moves of `Core`.
-/

import Mathlib.Data.Nat.Bitwise
import LittleKernel.Miniheap.Invariant

namespace LittleKernel
namespace Miniheap

open Word Ranges Function

variable {c : Config} {F X : List (ℕ × ℕ)} {B : List Block} {s s' : Heap}

@[simp] theorem debugAssert_of {p : Prop} {_ : Decidable p} (h : p) : debugAssert c p = some () := by
  simp [debugAssert, h]

namespace Heap

@[simp] theorem chunkLen_setChunkLen (a v : ℕ) (s : Heap) : (s.setChunkLen a v).chunkLen a = v :=
  update_self ..

theorem chunkLen_setChunkLen_of_ne {a b : ℕ} (v : ℕ) (s : Heap) (h : b ≠ a) :
    (s.setChunkLen a v).chunkLen b = s.chunkLen b :=
  update_of_ne (by omega) ..

theorem chunkLen_withList (a : ℕ) (l : List ℕ) (s : Heap) :
    chunkLen a { s with freeList := l } = s.chunkLen a := rfl

theorem setChunkLen_self {a v : ℕ} {s : Heap} (h : s.chunkLen a = v) : s.setChunkLen a v = s := by
  rw [setChunkLen, store, ← h, chunkLen, update_eq_self]

@[simp] theorem setChunkLen_setChunkLen (a v w : ℕ) (s : Heap) :
    (s.setChunkLen a v).setChunkLen a w = s.setChunkLen a w := by
  simp [setChunkLen, store]

end Heap

theorem heapCreateFreeChunk_eq {ptr len : ℕ} (h : len % 8 = 0) :
    heapCreateFreeChunk c ptr len s = some (s.setChunkLen ptr len) := by
  simp [heapCreateFreeChunk, h]

/-! ### Insertion -/

theorem mergeLast_eq {A : List (ℕ × ℕ)} {x : ℕ × ℕ} (hA : ∀ q ∈ A, s.chunkLen q.1 = q.2)
    (hx : s.chunkLen x.1 = x.2) :
    mergeLast (A.map Prod.fst) x.1 s = ((joinLast A x).1.map Prod.fst, (joinLast A x).2.1,
      s.setChunkLen (joinLast A x).2.1 (joinLast A x).2.2) := by
  rcases List.eq_nil_or_concat' A with rfl | ⟨init, l, rfl⟩
  · simp [mergeLast, joinLast, Heap.setChunkLen_self hx]
  · have hl : s.chunkLen l.1 = l.2 := hA l (by simp)
    by_cases h : l.1 + l.2 = x.1
    · simp [mergeLast, joinLast, hl, hx, h]
    · simp [mergeLast, joinLast, hl, h, Heap.setChunkLen_self hx]

theorem mergeNext_eq {D : List (ℕ × ℕ)} {y : ℕ × ℕ} (hD : ∀ q ∈ D, s.chunkLen q.1 = q.2)
    (hy : s.chunkLen y.1 = y.2) (hhead : y.1 + y.2 ≠ c.listHead) :
    mergeNext c (D.map Prod.fst) y.1 s =
      some (y.1 :: (joinNext y D).2.map Prod.fst, s.setChunkLen y.1 (joinNext y D).1.2) := by
  cases D with
  | nil => simp [mergeNext, joinNext, hy, hhead, Heap.setChunkLen_self hy]
  | cons n rest =>
    have hn : s.chunkLen n.1 = n.2 := hD n List.mem_cons_self
    by_cases h : y.1 + y.2 = n.1
    · simp [mergeNext, joinNext, hy, hn, h]
    · simp [mergeNext, joinNext, hy, h, Heap.setChunkLen_self hy]

namespace Core

variable {x : ℕ × ℕ}

/-- The piece is apart from the chunks of the list. -/
theorem loose_apart (h : Core c F (x :: X) B s) : ∀ q ∈ F, Apart x q := fun q hq => by
  have hFX := (List.pairwise_append.1 h.apart).1
  exact ((List.pairwise_append.1 hFX).2.2 q hq x List.mem_cons_self).symm

theorem loose_piece (h : Core c F (x :: X) B s) : Piece x := h.piece x (by simp)

/-- The header of a loose piece is written. -/
theorem setChunkLen (h : Core c F X B s) (hx : x ∈ X) (v : ℕ) : Core c F X B (s.setChunkLen x.1 v) := by
  have h24 : 24 ≤ x.2 := (h.piece x (by simp [hx])).1
  exact h.store_loose hx (by omega) (by omega) v

/-- **What an insertion does.** -/
theorem heapInsertFreeChunk_eq (h : Core c F (x :: X) B s) (hx : s.chunkLen x.1 = x.2) :
    heapInsertFreeChunk c x.1 s = some ((joined x F).1,
      { s.setChunkLen (joined x F).1 (joined x F).2 with
        remaining := u64 (s.remaining + x.2), freeList := (coalesce x F).map Prod.fst }) := by
  have hx24 : 24 ≤ x.2 := h.loose_piece.1
  have hbounds := h.bounds (q := x) (by simp)
  have hafter := fun q => end_le_of_mem_beyond h.gapped h.loose_apart (q := q)
  -- `y` is the piece with the chunk before it
  obtain ⟨hstart, hend⟩ : (joinLast (upTo x F) x).2.1 ≤ x.1 ∧
      (joinLast (upTo x F) x).2.1 + (joinLast (upTo x F) x).2.2 = x.1 + x.2 := by
    rcases joinLast_cases (upTo x F) x with ⟨h, -⟩ | ⟨init, l, -, hl, h⟩
    · rw [h]
      exact ⟨le_rfl, rfl⟩
    · rw [h]
      exact ⟨by simp only; omega, by simp only; omega⟩
  have hsplit : ∀ q ∈ upTo x F ++ beyond x F, s.chunkLen q.1 = q.2 := fun q hq =>
    h.lens q ((List.mem_append.1 hq).elim mem_of_mem_upTo mem_of_mem_beyond)
  have hnext : ∀ next ∈ ((beyond x F).map Prod.fst).head?, x.1 + x.2 ≤ next := by
    intro next hn
    obtain ⟨q, hq, rfl⟩ := List.mem_map.1 (List.mem_of_head? hn)
    exact hafter q hq
  have hbefore : s.freeList.takeWhile (· ≤ x.1) = (upTo x F).map Prod.fst := by
    rw [h.freeList, List.takeWhile_map]
    rfl
  have hbehind : s.freeList.dropWhile (· ≤ x.1) = (beyond x F).map Prod.fst := by
    rw [h.freeList, List.dropWhile_map]
    rfl
  have hlast := mergeLast_eq (s := { s with remaining := u64 (s.remaining + x.2) })
    (A := upTo x F) (fun q hq => hsplit q (List.mem_append_left _ hq)) hx
  have hmerge := mergeNext_eq (c := c) (D := beyond x F)
    (s := ({ s with remaining := u64 (s.remaining + x.2) } : Heap).setChunkLen
      (joinLast (upTo x F) x).2.1 (joinLast (upTo x F) x).2.2)
    (fun q hq => by
      have := hafter q hq
      rw [Heap.chunkLen_setChunkLen_of_ne _ _ (by omega)]
      exact hsplit q (List.mem_append_right _ hq))
    (Heap.chunkLen_setChunkLen ..) (hend ▸ hbounds.2.2)
  simp only [heapInsertFreeChunk, hx, hbefore, hbehind, hlast, Option.bind_eq_bind]
  rw [debugAssert_of (by exact fun next hn => hx.symm ▸ hnext next hn), hmerge]
  simp only [Option.bind_some, Heap.setChunkLen_setChunkLen, coalesce, List.map_append,
    List.map_cons, joined_fst]
  rfl

/-- The layout after an insertion. -/
theorem insert (h : Core c F (x :: X) B s) (r : ℕ) : Core c (coalesce x F) X B
    { s.setChunkLen (joined x F).1 (joined x F).2 with
      remaining := r, freeList := (coalesce x F).map Prod.fst } := by
  have hx24 : 24 ≤ x.2 := h.loose_piece.1
  have hgap : Gapped (coalesce x F) := gapped_coalesce (by omega) h.gapped h.loose_apart
  refine ⟨rfl, fun q hq => ?_, hgap, fun q hq => ?_, fun b hb => ?_, fun a => ?_, h.once, h.room⟩
  · rcases eq_joined_or_mem hq with rfl | hqF
    · exact Heap.chunkLen_setChunkLen ..
    · by_cases hne : q.1 = (joined x F).1
      · rw [hgap.eq_of_fst_eq hq (joined_mem_coalesce x F) hne]
        exact Heap.chunkLen_setChunkLen ..
      · exact (Heap.chunkLen_setChunkLen_of_ne _ _ hne).trans (h.lens q hqF)
  · rw [List.append_assoc] at hq
    rcases List.mem_append.1 hq with hq | hq
    · refine forall_coalesce (P := Piece) h.loose_piece (fun r hr => h.piece r (by simp [hr]))
        (fun q r hq hr => ?_) q hq
      obtain ⟨⟨h₁, h₂, h₃⟩, ⟨-, -, h₄⟩⟩ := And.intro hq hr
      exact ⟨Nat.le_add_right_of_le h₁, h₂, by simp only; omega⟩
    · refine h.piece q ?_
      simp only [List.mem_append, List.mem_cons] at hq ⊢
      tauto
  · -- the length that is written stands in the piece or in the chunk before it
    obtain ⟨q, hq, hfst⟩ := joined_fst_mem x F
    have hq' : q ∈ F ++ x :: X := by
      rcases List.mem_cons.1 hq with rfl | hq <;> simp [*]
    have hq24 : 24 ≤ q.2 := (h.piece q (List.mem_append_left _ hq')).1
    have hstop := (h.blocks b hb).stop
    refine (h.blocks b hb).congr fun a ha ha' => update_of_ne ?_ ..
    rcases (List.pairwise_append.1 h.apart).2.2 q hq' b.range (List.mem_map_of_mem hb) with h | h <;>
      simp only [Block.range] at h <;> omega
  · refine Eq.trans ?_ (h.cover a)
    simp only [cover_append, cover_coalesce, cover_cons]
    omega

end Core

/-- The layout between two calls. -/
def Inv (c : Config) (B : List Block) (s : Heap) : Prop :=
  ∃ F, Core c F [] B s ∧ s.remaining = (F.map Prod.snd).sum

/-- **A loose piece goes back to the list.** -/
theorem Core.free {x : ℕ × ℕ} (h : Core c F [x] B s) (hrem : s.remaining = (F.map Prod.snd).sum) :
    ∃ s₁ r s₂, heapCreateFreeChunk c x.1 x.2 s = some s₁ ∧
      heapInsertFreeChunk c x.1 s₁ = some (r, s₂) ∧ Inv c B s₂ := by
  have hlt := h.sum_lt
  simp only [List.map_singleton, List.sum_singleton] at hlt
  have h₁ := h.setChunkLen List.mem_cons_self x.2
  refine ⟨s.setChunkLen x.1 x.2, _, _, heapCreateFreeChunk_eq h.loose_piece.2.2,
    h₁.heapInsertFreeChunk_eq (Heap.chunkLen_setChunkLen ..), coalesce x F, h₁.insert _, ?_⟩
  have hsum := sum_coalesce (f := Prod.snd) (fun _ _ _ => rfl) x F
  show u64 (s.remaining + x.2) = _
  rw [hsum, hrem, u64_of_lt (by omega), Nat.add_comm]

/-! ### Freeing and growing -/

/-- **`miniheap_free` of a block.** -/
theorem Inv.miniheapFree {B₁ B₂ : List Block} {b : Block} (h : Inv c (B₁ ++ b :: B₂) s) :
    ∃ s', miniheapFree c b.ptr s = some s' ∧ Inv c (B₁ ++ B₂) s' := by
  obtain ⟨F, hcore, hrem⟩ := h
  have hok := hcore.blocks b (by simp)
  have hpos : 0 < b.ptr := by
    have := hok.start
    have := c.sixteen_le
    omega
  obtain ⟨s₁, r, s₂, h₁, h₂, hinv⟩ := hcore.giveUp.free hrem
  have hmagic : debugAssert c (s.mem (b.ptr - 24) = heapMagic) = some () := by
    rw [debugAssert, if_neg fun hd => hd.2 (hok.magic hd.1)]
  refine ⟨s₂, ?_, hinv⟩
  simp only [Block.range] at h₁ h₂
  simp [Miniheap.miniheapFree, hpos.ne', hmagic, hok.chunk, hok.len, h₁, h₂]

theorem Inv.answer (h : Inv c B s) (answer : Option ℕ) : Inv c B { s with answer := answer } := by
  obtain ⟨F, hcore, hrem⟩ := h
  exact ⟨F, hcore.congr rfl rfl (fun _ _ => rfl) fun _ _ _ _ _ => rfl, hrem⟩

/-- What `page_alloc` answers. -/
theorem pageAlloc_cases (c : Config) (pages : ℕ) (s : Heap) :
    (∃ answer, pageAlloc c pages s = (0, { s with answer := answer })) ∨
      ∃ p, s.Fresh c p (pages * pageSize) ∧ pageAlloc c pages s =
        (p, { s with answer := none, held := (p, pages * pageSize) :: s.held }) := by
  rw [pageAlloc]
  cases hs : s.answer with
  | none => exact .inl ⟨s.answer, rfl⟩
  | some p =>
    by_cases hf : s.Fresh c p (pages * pageSize)
    · exact .inr ⟨p, hf, by simp [hf]⟩
    · exact .inl ⟨none, by simp [hf]⟩

/-- **`heap_grow`.** -/
theorem Inv.heapGrow (h : Inv c B s) (size : ℕ) :
    ∃ err s', heapGrow c size s = some (err, s') ∧ Inv c B s' := by
  obtain ⟨n, hn⟩ : ∃ n, n = u64 (size + (pageSize - 1)) / pageSize := ⟨_, rfl⟩
  have hdiv : n * pageSize / pageSize = n := Nat.mul_div_cancel _ (by decide)
  simp only [Miniheap.heapGrow, rounddown, ← hn, hdiv]
  rcases pageAlloc_cases c n s with ⟨answer, ha⟩ | ⟨p, hf, ha⟩
  · rw [ha]
    exact ⟨errNoMemory, _, by simp, h.answer answer⟩
  · obtain ⟨F, hcore, hrem⟩ := h.answer none
    obtain ⟨hn0, hp, halign, hend, hhead, hnew⟩ := hf
    have hpiece : Piece (p, n * pageSize) := by
      simp only [Piece, pageSize, sizeofFreeHeapChunk] at hn0 halign ⊢
      omega
    obtain ⟨s₁, r, s₂, h₁, h₂, F', hcore', hrem'⟩ :=
      (hcore.gain hpiece hp hend hhead hnew).free hrem
    rw [ha]
    simp only [if_neg hp.ne', h₁, h₂, Option.bind_eq_bind, Option.bind_some]
    exact ⟨_, _, rfl, F', hcore'.congr rfl rfl (fun _ _ => rfl) fun _ _ _ _ _ => rfl, hrem'⟩

/-! ### Allocation -/

/-- The first chunk that is big enough, among chunks whose headers are right. -/
theorem findChunk_spec (c : Config) (size : ℕ) {A : List (ℕ × ℕ)} (hlen : ∀ q ∈ A, s.chunkLen q.1 = q.2)
    (hpiece : ∀ q ∈ A, Piece q) :
    findChunk c size s (A.map Prod.fst) = some none ∨ ∃ A₁ q A₂, A = A₁ ++ q :: A₂ ∧ size ≤ q.2 ∧
        findChunk c size s (A.map Prod.fst) = some (some q.1) := by
  induction A with
  | nil => exact .inl rfl
  | cons q A ih =>
    have hq := hlen q List.mem_cons_self
    have hmod := (hpiece q List.mem_cons_self).2.2
    simp only [List.map_cons, findChunk, hq, debugAssert_of hmod, Option.bind_eq_bind,
      Option.bind_some]
    by_cases hle : size ≤ q.2
    · exact .inr ⟨[], q, A, rfl, hle, if_pos hle⟩
    · rw [if_neg hle]
      rcases ih (fun r hr => hlen r (List.mem_cons_of_mem _ hr))
        (fun r hr => hpiece r (List.mem_cons_of_mem _ hr)) with h | ⟨A₁, r, A₂, rfl, hr, h⟩
      · exact .inl h
      · exact .inr ⟨q :: A₁, r, A₂, rfl, hr, h⟩

variable {A D : List (ℕ × ℕ)}

variable {q : ℕ × ℕ}

/-- **A chunk leaves the list**, and its end stays on it if it is long enough. -/
theorem Core.splitChunk {size : ℕ}
    (h : Core c (A ++ q :: D) [] B s) (hq : size ≤ q.2) (h24 : sizeofFreeHeapChunk ≤ size)
    (h8 : size % 8 = 0) (hlt : size + sizeofFreeHeapChunk < 2 ^ 64) :
    ∃ len F' s', splitChunk c size q.1 s = some s' ∧ Core c F' [(q.1, len)] B s' ∧
      s'.chunkLen q.1 = len ∧ size ≤ len ∧ s'.remaining = s.remaining ∧
      ((A ++ q :: D).map Prod.snd).sum = (F'.map Prod.snd).sum + len := by
  obtain ⟨q, n⟩ := q
  have hn : s.chunkLen q = n := h.lens (q, n) (by simp)
  obtain ⟨-, hq8, hn8⟩ : Piece (q, n) := h.piece (q, n) (by simp)
  have hnot := h.gapped.not_mem_left
  simp only [sizeofFreeHeapChunk] at *
  simp only [Miniheap.splitChunk, sizeofFreeHeapChunk, hn, u64_of_lt hlt]
  split_ifs with hfit
  · -- the chunk is cut in two and the second part put in its place
    have hgap : Gapped (A ++ (q + size, n - size) :: D) :=
      h.gapped.within (M := [(q + size, n - size)]) (List.pairwise_singleton ..) (by
        simp only [List.mem_singleton, forall_eq]
        omega)
    have hsplit := h.take.split (m := q + size) (by simp only [sizeofFreeHeapChunk]; omega)
      (by simp only [sizeofFreeHeapChunk]; omega) (by omega)
    rw [Nat.add_sub_cancel_left, Nat.add_sub_add_left] at hsplit
    have hnew := hsplit.setChunkLen (List.mem_cons_of_mem _ List.mem_cons_self) (n - size)
    have hold := hnew.setChunkLen List.mem_cons_self (n - (n - size))
    have hput := hold.swap.put
      ((Heap.chunkLen_setChunkLen_of_ne _ _ (by simp only; omega)).trans
        (Heap.chunkLen_setChunkLen ..)) hgap
    have hreplace : s.freeList.replace q (q + size) =
        (A ++ (q + size, n - size) :: D).map Prod.fst := by
      rw [h.freeList, List.map_append, List.map_cons, List.replace_append_right hnot,
        List.replace_cons_self, List.map_append, List.map_cons]
    rw [heapCreateFreeChunk_eq (by omega)]
    refine ⟨size, A ++ (q + size, n - size) :: D, _, rfl, ?_, ?_, le_rfl, rfl, ?_⟩
    · rw [show Heap.freeList (s.setChunkLen (q + size) (n - size)) = s.freeList from rfl, hreplace]
      exact hput
    · rw [Heap.chunkLen_setChunkLen]
      omega
    · simp only [List.map_append, List.map_cons, List.sum_append, List.sum_cons]
      omega
  · refine ⟨n, A ++ D, _, rfl, ?_, hn, hq, rfl, ?_⟩
    · have := h.take
      rw [h.freeList, List.map_append, List.map_cons, List.erase_append_right _ hnot,
        List.erase_cons_head, ← List.map_append]
      exact this
    · simp only [List.map_append, List.map_cons, List.sum_append, List.sum_cons]
      omega

/-- **The header of a block is written.** -/
theorem Core.writeAllocStruct {b : Block} (h : Core c F [b.range] B s)
    (hstart : b.chunk + c.sizeofAllocStructBegin ≤ b.ptr) (hstop : b.ptr + b.size ≤ b.chunk + b.len)
    (hword : b.ptr % 8 = 0) (haligned : 0 < b.alignment → b.alignment ∣ b.ptr) :
    Core c F [] (b :: B) (writeAllocStruct c b.ptr b.chunk b.len s) := by
  have h16 := c.sixteen_le
  have hin : ∀ {s : Heap}, Core c F [b.range] B s → ∀ k, 8 ≤ k → k ≤ c.sizeofAllocStructBegin →
      ∀ v, Core c F [b.range] B (s.store (b.ptr - k) v) := fun hs k h8 hk v =>
    hs.store_loose List.mem_cons_self (show b.chunk ≤ b.ptr - k by omega)
      (show b.ptr - k < b.chunk + b.len by omega) v
  have hmagic : Core c F [b.range] B
      (if c.debug then s.store (b.ptr - 24) heapMagic else s) := by
    split_ifs with hd
    · exact hin h 24 (by omega) (Config.of_debug hd).ge _
    · exact h
  have hall := hin (hin hmagic 16 (by omega) h16 b.chunk) 8 le_rfl (by omega) b.len
  refine hall.handOut ⟨?_, update_self .., fun hd => ?_, hstart, hstop, hword, haligned⟩
  · exact (update_of_ne (by omega) ..).trans (update_self ..)
  · have h24 := Config.of_debug hd
    refine (update_of_ne (by omega) ..).trans
      ((update_of_ne (by omega) ..).trans ?_)
    rw [if_pos hd]
    exact update_self ..

/-- What the request comes to, without a wrap. -/
def need (c : Config) (size alignment : ℕ) : ℕ :=
  (max (size + c.sizeofAllocStructBegin) sizeofFreeHeapChunk + 7) / 8 * 8 +
    if 0 < alignment then max alignment 16 else 0

/-- The size is small enough for no sum of it to wrap, up to whole pages. -/
def NoWrap (c : Config) (size alignment : ℕ) : Prop := need c size alignment + pageSize < 2 ^ 64

instance (c : Config) (size alignment : ℕ) : Decidable (NoWrap c size alignment) :=
  inferInstanceAs (Decidable (_ < _))

/-- It is with the smallest chunk behind it. -/
def Fits (c : Config) (size alignment : ℕ) : Prop :=
  need c size alignment + sizeofFreeHeapChunk < 2 ^ 64

instance (c : Config) (size alignment : ℕ) : Decidable (Fits c size alignment) :=
  inferInstanceAs (Decidable (_ < _))

theorem NoWrap.fits {size alignment : ℕ} (h : NoWrap c size alignment) : Fits c size alignment := by
  simp only [NoWrap, Fits, pageSize, sizeofFreeHeapChunk] at h ⊢
  omega

theorem allocSize_eq {size alignment : ℕ} (h : Fits c size alignment) :
    allocSize c size alignment = need c size alignment := by
  have h16 := c.sixteen_le
  simp only [Fits, need, sizeofFreeHeapChunk] at h
  have h₁ : u64 (size + c.sizeofAllocStructBegin) = size + c.sizeofAllocStructBegin :=
    u64_of_lt (by split_ifs at h <;> omega)
  have h₂ : (if size + c.sizeofAllocStructBegin < 24 then 24 else
      size + c.sizeofAllocStructBegin) = max (size + c.sizeofAllocStructBegin) 24 := by
    split_ifs <;> omega
  have h₃ : u64 (max (size + c.sizeofAllocStructBegin) 24 + 7) =
      max (size + c.sizeofAllocStructBegin) 24 + 7 := u64_of_lt (by split_ifs at h <;> omega)
  simp only [allocSize, rounddown, sizeofFreeHeapChunk, need, h₁, h₂, h₃]
  split_ifs with ha
  · rw [if_pos ha] at h
    exact u64_of_lt (by omega)
  · rfl

/-- An alignment that passes the test is 0 or a power of two. -/
theorem isPowerOfTwo_of_test {alignment : ℕ} (h : alignment &&& sub32 alignment 1 = 0)
    (hlt : alignment < 2 ^ 32) (hpos : 0 < alignment) : ∃ e, alignment = 2 ^ e := by
  rw [sub32_of_le hlt hpos] at h
  exact (Nat.and_sub_one_eq_zero_iff_isPowerOfTwo hpos.ne').1 h

theorem dvd_max_sixteen {alignment : ℕ} (h : ∃ e, alignment = 2 ^ e) :
    alignment ∣ max alignment 16 ∧ 8 ∣ max alignment 16 := by
  obtain ⟨e, rfl⟩ := h
  rcases Nat.lt_or_ge e 4 with he | he
  · have hlt : 2 ^ e < 2 ^ 4 := Nat.pow_lt_pow_right (by norm_num) he
    rw [max_eq_right (by omega)]
    exact ⟨pow_dvd_pow 2 he.le, by norm_num⟩
  · have hle : 2 ^ 4 ≤ 2 ^ e := Nat.pow_le_pow_right (by norm_num) he
    rw [max_eq_left (by omega)]
    exact ⟨dvd_rfl, pow_dvd_pow 2 (show 3 ≤ e by omega)⟩

theorem roundup_spec {a b : ℕ} (hb : 0 < b) : a ≤ roundup a b ∧ roundup a b < a + b ∧ b ∣ roundup a b := by
  have := Nat.div_add_mod (a + (b - 1)) b
  have := Nat.mod_lt (a + (b - 1)) hb
  refine ⟨?_, ?_, Dvd.intro_left _ rfl⟩ <;> rw [roundup, Nat.mul_comm] <;> omega

section Alloc

variable {size alignment : ℕ}

/-- **A chunk that is big enough becomes a block.** -/
theorem Core.allocChunk {q : ℕ × ℕ} (h : Core c (A ++ q :: D) [] B s)
    (hrem : s.remaining = ((A ++ q :: D).map Prod.snd).sum)
    (htest : alignment &&& sub32 alignment 1 = 0) (hlt : alignment < 2 ^ 32)
    (hw : Fits c size alignment) (hq : need c size alignment ≤ q.2) :
    ∃ b : Block, ∃ s', allocChunk c (need c size alignment) alignment q.1 s = some (b.ptr, s') ∧
      0 < b.ptr ∧ b.size = size ∧ b.alignment = alignment ∧ Inv c (b :: B) s' := by
  have h16 := c.sixteen_le
  have hhdr : c.sizeofAllocStructBegin % 8 = 0 := by
    rw [Config.sizeofAllocStructBegin]
    split_ifs <;> rfl
  have hq8 := (h.piece q (by simp)).2.1
  have h8 : need c size alignment % 8 = 0 := by
    rw [need]
    split_ifs with ha
    · have := (dvd_max_sixteen (isPowerOfTwo_of_test htest hlt ha)).2
      omega
    · omega
  have hneed : size + c.sizeofAllocStructBegin + (if 0 < alignment then max alignment 16 else 0) ≤
      need c size alignment ∧ sizeofFreeHeapChunk ≤ need c size alignment := by
    simp only [need, sizeofFreeHeapChunk]
    omega
  obtain ⟨len, F, s₁, hs₁, hcore, hlen, hle, hrem₁, hsum⟩ := h.splitChunk hq hneed.2 h8 hw
  -- the payload, behind the header and aligned
  obtain ⟨ptr, hptr⟩ : ∃ ptr, ptr = if 0 < alignment then
      roundup (q.1 + c.sizeofAllocStructBegin) (max alignment 16) else
      q.1 + c.sizeofAllocStructBegin := ⟨_, rfl⟩
  obtain ⟨hstart, hstop, hword, haligned⟩ : q.1 + c.sizeofAllocStructBegin ≤ ptr ∧
      ptr + size ≤ q.1 + len ∧ ptr % 8 = 0 ∧ (0 < alignment → alignment ∣ ptr) := by
    by_cases ha : 0 < alignment
    · obtain ⟨hdvd, h8'⟩ := dvd_max_sixteen (isPowerOfTwo_of_test htest hlt ha)
      rw [if_pos ha] at hptr hneed
      obtain ⟨h₁, h₂, h₃⟩ := roundup_spec (a := q.1 + c.sizeofAllocStructBegin)
        (show 0 < max alignment 16 by omega)
      rw [← hptr] at h₁ h₂ h₃
      exact ⟨h₁, by omega, Nat.mod_eq_zero_of_dvd (h8'.trans h₃), fun _ => hdvd.trans h₃⟩
    · rw [if_neg ha] at hptr hneed
      exact ⟨by omega, by omega, by omega, fun h => absurd h ha⟩
  have hblock := Core.writeAllocStruct (b := ⟨q.1, len, ptr, size, alignment⟩) hcore hstart hstop
    hword haligned
  have hlt' := h.sum_lt
  simp only [List.map_nil, List.sum_nil] at hlt'
  have hremaining : sub64 s₁.remaining len = (F.map Prod.snd).sum := by
    rw [sub64_of_le (by omega) (by omega)]
    omega
  have hwrite : (Miniheap.writeAllocStruct c ptr q.1 len s₁).remaining = s₁.remaining := by
    rw [Miniheap.writeAllocStruct]
    split_ifs <;> rfl
  obtain ⟨s', hs', hcore', hrem'⟩ : ∃ s',
      Miniheap.allocChunk c (need c size alignment) alignment q.1 s = some (ptr, s') ∧
        Core c F [] (⟨q.1, len, ptr, size, alignment⟩ :: B) s' ∧
        s'.remaining = (F.map Prod.snd).sum := by
    simp only [Miniheap.allocChunk, hs₁, hlen, debugAssert_of hle, Option.bind_eq_bind,
      Option.bind_some, ← hptr]
    exact ⟨_, rfl, hblock.congr rfl rfl (fun _ _ => rfl) fun _ _ _ _ _ => rfl,
      (congrArg (sub64 · len) hwrite).trans hremaining⟩
  exact ⟨_, s', hs', show 0 < ptr by omega, rfl, rfl, F, hcore', hrem'⟩

/-- What an allocation leaves: the heap as it was and `NULL`, or one block more. -/
def Served (c : Config) (size alignment : ℕ) (B : List Block) (ptr : ℕ) (s : Heap) : Prop :=
  ptr = 0 ∧ Inv c B s ∨ 0 < ptr ∧ ∃ b : Block, b.ptr = ptr ∧ b.size = size ∧
    b.alignment = alignment ∧ Inv c (b :: B) s

theorem Inv.allocTry (h : Inv c B s) (htest : alignment &&& sub32 alignment 1 = 0)
    (hlt : alignment < 2 ^ 32) (hw : Fits c size alignment) :
    ∃ ptr s', allocTry c (need c size alignment) alignment s = some (ptr, s') ∧
      Served c size alignment B ptr s' := by
  obtain ⟨F, hcore, hrem⟩ := h
  rw [Miniheap.allocTry, hcore.freeList]
  have hfind := findChunk_spec c (need c size alignment) hcore.lens (fun q hq => hcore.piece q (by simp [hq]))
  rcases hfind with hf | ⟨A, q, D, rfl, hq, hf⟩
  · rw [hf]
    exact ⟨0, s, rfl, .inl ⟨rfl, F, hcore, hrem⟩⟩
  · rw [hf]
    obtain ⟨b, s', hs', hpos, hsize, halign, hinv⟩ := hcore.allocChunk hrem htest hlt hw hq
    exact ⟨b.ptr, s', hs', .inr ⟨hpos, b, rfl, hsize, halign, hinv⟩⟩

/-- **`miniheap_alloc`.** -/
theorem Inv.miniheapAlloc (h : Inv c B s) (hlt : alignment < 2 ^ 32) (hw : Fits c size alignment) :
    ∃ ptr s', miniheapAlloc c size alignment s = some (ptr, s') ∧
      Served c size alignment B ptr s' := by
  simp only [Miniheap.miniheapAlloc, allocSize_eq hw]
  split_ifs with htest
  · exact ⟨0, s, rfl, .inl ⟨rfl, h⟩⟩
  · have htest : alignment &&& sub32 alignment 1 = 0 := not_not.1 htest
    obtain ⟨ptr, s₁, hs₁, hserved⟩ := h.allocTry htest hlt hw
    simp only [hs₁, Option.bind_eq_bind, Option.bind_some]
    rcases hserved with ⟨rfl, hinv⟩ | hblock
    · -- the heap grows, or does not, and one more try may be made
      obtain ⟨err, s₂, hs₂, hinv₂⟩ := hinv.heapGrow (need c size alignment)
      simp only [ne_eq, not_true_eq_false, if_false, hs₂, Option.bind_some]
      split_ifs
      · exact hinv₂.allocTry htest hlt hw
      · exact ⟨0, s₂, rfl, .inl ⟨rfl, hinv₂⟩⟩
    · rw [if_pos hblock.1.ne']
      exact ⟨ptr, s₁, rfl, .inr hblock⟩

end Alloc

/-! ### Trimming -/

theorem erase_mid (h : q.1 ∉ A.map Prod.fst) :
    ((A ++ q :: D).map Prod.fst).erase q.1 = (A ++ D).map Prod.fst := by
  rw [List.map_append, List.map_cons, List.erase_append_right _ h, List.erase_cons_head,
    ← List.map_append]

theorem insertAfter_mid {q r : ℕ × ℕ} (h : q.1 ∉ A.map Prod.fst) :
    insertAfter q.1 r.1 ((A ++ q :: D).map Prod.fst) = (A ++ q :: r :: D).map Prod.fst := by
  induction A with
  | nil => simp [insertAfter]
  | cons a A ih =>
    simp only [List.map_cons, List.mem_cons, not_or] at h
    simp only [List.cons_append, List.map_cons, insertAfter, if_neg (Ne.symm h.1), ih h.2]

/-- The pages a chunk can give back: whole pages of it, that leave room for a chunk on each
side where they leave something. -/
structure Spare (start stop startPage endPage : ℕ) : Prop where
  lt : startPage < endPage
  firstPage : startPage % pageSize = 0
  lastPage : endPage % pageSize = 0
  before : startPage = start ∨ start + sizeofFreeHeapChunk ≤ startPage
  after : endPage = stop ∨ endPage + sizeofFreeHeapChunk ≤ stop

/-- The search has an end, with the pages that can go if there are any. -/
def SearchEnds (start stop : ℕ) (r : Option (Option (ℕ × ℕ))) : Prop :=
  r = some none ∨ ∃ startPage endPage, Spare start stop startPage endPage ∧
    r = some (some (startPage, endPage))

section Search

variable {start stop startPage endPage fuel : ℕ}

theorem trimPages_spare (hp : startPage % pageSize = 0) (he : endPage % pageSize = 0)
    (hbefore : startPage = start ∨ start + sizeofFreeHeapChunk ≤ startPage)
    (hafter : endPage = stop ∨ endPage + sizeofFreeHeapChunk ≤ stop) :
    SearchEnds start stop (trimPages start stop (fuel + 1) startPage endPage) := by
  rw [trimPages]
  split_ifs with hlt h₁ h₂
  · omega
  · omega
  · exact .inr ⟨startPage, endPage, ⟨hlt, hp, he, hbefore, hafter⟩, rfl⟩
  · exact .inl rfl

/-- At most one retry for the last page. -/
theorem trimPages_after (hp : startPage % pageSize = 0) (he : endPage % pageSize = 0)
    (hbefore : startPage = start ∨ start + sizeofFreeHeapChunk ≤ startPage) (hle : endPage ≤ stop) :
    SearchEnds start stop (trimPages start stop (fuel + 2) startPage endPage) := by
  by_cases hafter : endPage = stop ∨ endPage + sizeofFreeHeapChunk ≤ stop
  · exact trimPages_spare hp he hbefore hafter
  · rw [trimPages]
    split_ifs with hlt h₁ h₂
    · omega
    · simp only [pageSize, sizeofFreeHeapChunk] at *
      refine trimPages_spare hp ?_ hbefore (.inr ?_) <;>
        simp only [pageSize, sizeofFreeHeapChunk] <;> omega
    · omega
    · exact .inl rfl

/-- **At most one retry for each side.** -/
theorem trimPages_ends (start stop : ℕ) : SearchEnds start stop
    (trimPages start stop 3 (roundup start pageSize) (rounddown stop pageSize)) := by
  obtain ⟨hle, -, hdvd⟩ := roundup_spec (a := start) (show 0 < pageSize by decide)
  have hp := Nat.mod_eq_zero_of_dvd hdvd
  have he : rounddown stop pageSize % pageSize = 0 := Nat.mul_mod_left ..
  have hstop : rounddown stop pageSize ≤ stop := Nat.div_mul_le_self ..
  by_cases hbefore : roundup start pageSize = start ∨
      start + sizeofFreeHeapChunk ≤ roundup start pageSize
  · exact trimPages_after hp he hbefore hstop
  · rw [trimPages]
    split_ifs with hlt h₁
    · refine trimPages_after ?_ he (.inr ?_) hstop <;>
        simp only [pageSize, sizeofFreeHeapChunk] at * <;> omega
    · omega
    · omega
    · exact .inl rfl

end Search

/-- **Pages are cut out of a chunk.**  What is left of it before and behind stays on the
list. -/
theorem Core.cutChunk {q n startPage endPage : ℕ}
    (h : Core c (A ++ (q, n) :: D) [] B s) (hs : Spare q (q + n) startPage endPage) :
    ∃ M s', cutChunk c q (q + n) startPage endPage s = some s' ∧
      Core c (A ++ (M ++ D)) [(startPage, endPage - startPage)] B s' ∧ s'.remaining = s.remaining ∧
      ((A ++ (q, n) :: D).map Prod.snd).sum =
        ((A ++ (M ++ D)).map Prod.snd).sum + (endPage - startPage) := by
  obtain ⟨hlt, hp, he, hbefore, hafter⟩ := hs
  have hn : s.chunkLen q = n := h.lens (q, n) (by simp)
  obtain ⟨hn24, hq8, hn8⟩ : Piece (q, n) := h.piece (q, n) (by simp)
  have hnot := h.gapped.not_mem_left
  have htake := h.take
  simp only [sizeofFreeHeapChunk, pageSize] at hn24 hq8 hn8 hp he hbefore hafter
  have hsum : ∀ M : List (ℕ × ℕ), n = (M.map Prod.snd).sum + (endPage - startPage) →
      ((A ++ (q, n) :: D).map Prod.snd).sum =
        ((A ++ (M ++ D)).map Prod.snd).sum + (endPage - startPage) := fun M hM => by
    simp only [List.map_append, List.map_cons, List.sum_append, List.sum_cons]
    omega
  rcases hbefore with rfl | hbefore
  · rcases hafter with rfl | hafter
    · -- the whole chunk
      refine ⟨[], _, if_pos ⟨rfl, rfl⟩, ?_, rfl, hsum [] (by simp)⟩
      rw [h.freeList, erase_mid hnot, Nat.add_sub_cancel_left]
      exact htake
    · -- all but the end of it
      have hsplit := htake.split (m := endPage) (by simp only [sizeofFreeHeapChunk]; omega) hafter
        (by omega)
      have hold := hsplit.setChunkLen List.mem_cons_self (n - (startPage + n - endPage))
      have hnew := hold.setChunkLen (List.mem_cons_of_mem _ List.mem_cons_self)
        (startPage + n - endPage)
      have hput := hnew.swap.put (Heap.chunkLen_setChunkLen ..)
        (h.gapped.within (M := [(endPage, startPage + n - endPage)]) (List.pairwise_singleton ..)
          (by simp only [List.mem_singleton, forall_eq]; omega))
      refine ⟨[(endPage, startPage + n - endPage)], _, ?_, hput, rfl, hsum _ (by simp; omega)⟩
      have hlist : (insertAfter startPage endPage s.freeList).erase startPage =
          (A ++ (endPage, startPage + n - endPage) :: D).map Prod.fst := by
        rw [h.freeList, insertAfter_mid (q := (startPage, n)) (r := (endPage, startPage + n - endPage)) hnot]
        exact erase_mid (q := (startPage, n)) hnot
      simp only [Miniheap.cutChunk, hn, show endPage < startPage + n by omega,
        show endPage ≠ startPage + n by omega, and_false, if_false, if_true, and_self,
        heapCreateFreeChunk_eq (show (startPage + n - endPage) % 8 = 0 by omega),
        Option.bind_eq_bind, Option.bind_some]
      exact congrArg some (congrArg (fun l => Heap.mk _ _ _ _ _ l _ _) hlist)
  · have hne : startPage ≠ q := by omega
    rcases hafter with hafter | hafter
    · -- all but the start of it
      subst hafter
      have hsplit := htake.split (m := startPage) hbefore
        (by simp only [sizeofFreeHeapChunk]; omega) (by omega)
      have hold := hsplit.setChunkLen List.mem_cons_self (n - (q + n - startPage))
      have hput := hold.put ((Heap.chunkLen_setChunkLen ..).trans (by simp only; omega))
        (h.gapped.within (M := [(q, startPage - q)]) (List.pairwise_singleton ..)
          (by simp only [List.mem_singleton, forall_eq]; omega))
      refine ⟨[(q, startPage - q)], _, ?_, hput, rfl, hsum _ (by simp; omega)⟩
      simp only [Miniheap.cutChunk, hn, lt_irrefl, hne, false_and, if_false,
        Option.bind_eq_bind, Option.bind_some]
      refine congrArg some (congrArg (fun l => Heap.mk _ _ _ _ _ l _ _) ?_)
      rw [h.freeList]
      simp
    · -- the middle of it
      have hsplit := htake.split (m := endPage) (by simp only [sizeofFreeHeapChunk]; omega) hafter
        (by omega)
      have hold := hsplit.setChunkLen List.mem_cons_self (n - (q + n - endPage))
      have hnew := hold.setChunkLen (List.mem_cons_of_mem _ List.mem_cons_self) (q + n - endPage)
      have hcut := hnew.split (m := startPage) hbefore
        (by simp only [sizeofFreeHeapChunk]; omega) (by omega)
      have hlast := hcut.setChunkLen List.mem_cons_self
        (n - (q + n - endPage) - (endPage - startPage))
      have hput := hlast.put ((Heap.chunkLen_setChunkLen ..).trans (by simp only; omega))
        (h.gapped.within (M := [(q, startPage - q)]) (List.pairwise_singleton ..)
          (by simp only [List.mem_singleton, forall_eq]; omega))
      have hgap : Gapped (A ++ [(q, startPage - q)] ++ (endPage, q + n - endPage) :: D) := by
        rw [List.append_assoc]
        refine h.gapped.within (M := [(q, startPage - q), (endPage, q + n - endPage)]) ?_ ?_
        · refine List.pairwise_pair.2 ?_
          simp only
          omega
        · simp only [List.mem_cons, List.not_mem_nil, or_false, forall_eq_or_imp, forall_eq]
          omega
      rw [← List.singleton_append, ← List.append_assoc] at hput
      have hput' := hput.swap.put
        ((Heap.chunkLen_setChunkLen_of_ne _ _ (show endPage ≠ q by omega)).trans
          (Heap.chunkLen_setChunkLen ..)) hgap
      rw [List.append_assoc, show q + (endPage - q) - startPage = endPage - startPage by omega]
        at hput'
      refine ⟨[(q, startPage - q), (endPage, q + n - endPage)], _, ?_, hput', rfl,
        hsum _ (by simp; omega)⟩
      have hlist : insertAfter q endPage s.freeList =
          (A ++ ([(q, startPage - q)] ++ (endPage, q + n - endPage) :: D)).map Prod.fst := by
        rw [h.freeList, insertAfter_mid (q := (q, n)) (r := (endPage, q + n - endPage)) hnot]
        simp
      simp only [Miniheap.cutChunk, hn, show endPage < q + n by omega, hne, false_and, if_false,
        if_true, heapCreateFreeChunk_eq (show (q + n - endPage) % 8 = 0 by omega),
        Option.bind_eq_bind, Option.bind_some]
      have hlen : Heap.chunkLen q ((s.setChunkLen q (n - (q + n - endPage))).setChunkLen endPage
          (q + n - endPage)) = n - (q + n - endPage) :=
        (Heap.chunkLen_setChunkLen_of_ne _ _ (by omega)).trans (Heap.chunkLen_setChunkLen ..)
      refine congrArg some ?_
      rw [Heap.chunkLen_withList, hlen]
      exact congrArg (fun l => Heap.mk _ _ _ _ _ l _ _) hlist

/-- **One turn of the loop.** -/
theorem Core.trimChunk (h : Core c (A ++ q :: D) [] B s)
    (hrem : s.remaining = ((A ++ q :: D).map Prod.snd).sum) :
    ∃ M s', trimChunk c q.1 s = some s' ∧ Core c (A ++ (M ++ D)) [] B s' ∧
      s'.remaining = ((A ++ (M ++ D)).map Prod.snd).sum := by
  obtain ⟨q, n⟩ := q
  have hn : s.chunkLen q = n := h.lens (q, n) (by simp)
  have hn24 : 24 ≤ n := (h.piece (q, n) (by simp)).1
  have hlt := h.sum_lt
  simp only [List.map_nil, List.sum_nil, Nat.add_zero] at hlt
  simp only [Miniheap.trimChunk, hn, debugAssert_of (show q < q + n by omega),
    debugAssert_of (show rounddown (q + n) pageSize ≤ q + n from Nat.div_mul_le_self ..),
    debugAssert_of (roundup_spec (a := q) (show 0 < pageSize by decide)).1, Option.bind_eq_bind,
    Option.bind_some]
  rcases trimPages_ends q (q + n) with hnone | ⟨startPage, endPage, hs, hsome⟩
  · rw [hnone]
    exact ⟨[(q, n)], s, rfl, h, hrem⟩
  · rw [hsome]
    obtain ⟨M, s₁, hs₁, hcore, hrem₁, hsum⟩ := h.cutChunk hs
    simp only [Option.bind_some, hs₁]
    have hpages : (endPage - startPage) / pageSize * pageSize = endPage - startPage := by
      have := hs.firstPage
      have := hs.lastPage
      simp only [pageSize] at *
      omega
    refine ⟨M, _, rfl, ?_, ?_⟩
    · have hback := hcore.giveBack
      rw [← hpages] at hback
      exact hback.congr rfl rfl (fun _ _ => rfl) fun _ _ _ _ _ => rfl
    · show sub64 s₁.remaining _ = _
      rw [hrem₁, hrem, sub64_of_le hlt (by omega)]
      omega

/-- **The loop**, over the chunks `D` that it has not looked at. -/
theorem Core.trimWalk (h : Core c (A ++ D) [] B s)
    (hrem : s.remaining = ((A ++ D).map Prod.snd).sum) :
    ∃ s', trimWalk c (D.map Prod.fst) s = some s' ∧ Inv c B s' := by
  induction D generalizing A s with
  | nil => exact ⟨s, rfl, _, h, hrem⟩
  | cons q D ih =>
    obtain ⟨M, s₁, hs₁, hcore, hrem₁⟩ := h.trimChunk hrem
    rw [← List.append_assoc] at hcore hrem₁
    obtain ⟨s₂, hs₂, hinv⟩ := ih hcore hrem₁
    exact ⟨s₂, by simp [Miniheap.trimWalk, hs₁, hs₂], hinv⟩

/-- **`miniheap_trim`.** -/
theorem Inv.miniheapTrim (h : Inv c B s) : ∃ s', miniheapTrim c s = some s' ∧ Inv c B s' := by
  obtain ⟨F, hcore, hrem⟩ := h
  rw [Miniheap.miniheapTrim, hcore.freeList]
  exact Core.trimWalk (A := []) hcore hrem

end Miniheap
end LittleKernel
