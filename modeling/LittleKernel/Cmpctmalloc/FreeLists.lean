/-
# Headers and free lists in memory

The part of the invariant that the primitives of `cmpctmalloc.c` keep: the writes
of headers, `create_free_area` and `unlink_free`.

A `Node` is a header in memory with the words it holds and the bytes it stands
for.  `Core N F s` says of a list of nodes and a list of free areas that the
nodes are apart, that memory holds their words, and that the areas are linked into
the lists of their buckets.  The nodes need not form chains and their words need
not make sense: in the middle of a call a header may still hold the size of an
area that has been cut, or be marked free after it was unlinked.  Each primitive
has one lemma that says how it changes the words of one node or the list of free
areas (`Core.setLeft`, `Core.setSize`, `Core.unlink`, `Core.push`); cutting and
joining nodes (`Core.split`, `Core.join`) changes nothing in memory.
-/

import Mathlib.Data.List.Pairwise
import LittleKernel.Lib.DList
import LittleKernel.Cmpctmalloc.Basic

namespace LittleKernel
namespace Cmpct

open Word DList Function

/-- A header in memory: where it is, the bytes from there to the next header, and
the words `left`, the tag included, and `size`. -/
structure Node where
  addr : ℕ
  span : ℕ
  left : ℕ
  size : ℕ
  deriving DecidableEq

/-- The bytes of the two nodes are apart. -/
def Node.Apart (n n' : Node) : Prop := Ranges.Apart (n.addr, n.span) (n'.addr, n'.span)

instance : Std.Symm Node.Apart := ⟨fun _ _ => Ranges.Apart.symm⟩

/-- The part of the heap that the primitives leave alone. -/
def Heap.outer (s : Heap) : ℕ × Bool × List (Option ℕ) × List (ℕ × ℕ) × List ℕ :=
  (s.size, s.locked, s.answers, s.held, s.live)

theorem Heap.size_of_outer {s s' : Heap} (h : s'.outer = s.outer) : s'.size = s.size :=
  congrArg (·.1) h

theorem Heap.held_of_outer {s s' : Heap} (h : s'.outer = s.outer) : s'.held = s.held :=
  congrArg (·.2.2.2.1) h

theorem Heap.live_of_outer {s s' : Heap} (h : s'.outer = s.outer) : s'.live = s.live :=
  congrArg (·.2.2.2.2) h

@[simp] theorem Heap.store_self (a v : ℕ) (s : Heap) : (s.store a v).mem a = v :=
  update_self ..

theorem Heap.store_of_ne {a c : ℕ} (h : c ≠ a) (v : ℕ) (s : Heap) : (s.store a v).mem c = s.mem c :=
  update_of_ne h ..

/-- The bucket of a free area by its size with the header. -/
def areaBucket (size : ℕ) : Option ℕ := bucketOf (sizeToIndexFreeing (sub64 size 16))

/-- `L i` is the list of bucket `i`, in memory and in the tables of `theheap`; the
areas on the lists are those of `F`, by address and size. -/
structure Lists (L : ℕ → List ℕ) (F : List (ℕ × ℕ)) (s : Heap) : Prop where
  head : ∀ i, s.freeLists i = (L i).headD 0
  linked : ∀ i, Linked 0 (fun a => s.mem (a + 16)) (fun a => s.mem (a + 24)) 0 (L i)
  nodup : ∀ i, (L i).Nodup
  mem_iff : ∀ i a, a ∈ L i ↔ ∃ z, (a, z) ∈ F ∧ areaBucket z = some i
  bucket : ∀ f ∈ F, (areaBucket f.2).isSome
  bit : ∀ i, freeListBit s.freeListBits i = !(L i).isEmpty
  remaining : s.remaining = (F.map Prod.snd).sum

/-- The headers `N` and the free areas `F` are in memory. -/
structure Core (N : List Node) (F : List (ℕ × ℕ)) (s : Heap) : Prop where
  header : ∀ n ∈ N, s.mem n.addr = n.left ∧ s.mem (n.addr + 8) = n.size
  apart : N.Pairwise Node.Apart
  room : ∀ n ∈ N, 0 < n.addr ∧ 16 ≤ n.span ∧ n.addr + n.span ≤ 2 ^ 64
  inside : ∀ f ∈ F, ∃ n ∈ N, n.addr = f.1 ∧ 32 ≤ n.span ∧ f.2 ≤ n.span
  nodup : (F.map Prod.fst).Nodup
  lists : ∃ L, Lists L F s

namespace Core

variable {N A B : List Node} {F : List (ℕ × ℕ)} {s : Heap} {n n' : Node}

variable (h : Core N F s)
include h

theorem perm {N' : List Node} {F' : List (ℕ × ℕ)} (hN : N.Perm N')
    (hF : F.Perm F') : Core N' F' s where
  header n hn := h.header n (hN.mem_iff.2 hn)
  apart := (hN.pairwise_iff Ranges.Apart.symm).1 h.apart
  room n hn := h.room n (hN.mem_iff.2 hn)
  inside f hf := by
    obtain ⟨n, hn, hnf⟩ := h.inside f (hF.mem_iff.2 hf)
    exact ⟨n, hN.mem_iff.1 hn, hnf⟩
  nodup := ((hF.map Prod.fst).nodup_iff).1 h.nodup
  lists := by
    obtain ⟨L, hL⟩ := h.lists
    exact ⟨L, hL.head, hL.linked, hL.nodup, fun i a => by simp only [hL.mem_iff, hF.mem_iff],
      fun f hf => hL.bucket f (hF.mem_iff.2 hf), hL.bit,
      hL.remaining.trans (hF.map Prod.snd).sum_eq⟩

/-- Two nodes are the same or apart. -/
theorem eq_or_apart (hn : n ∈ N) (hn' : n' ∈ N) :
    n = n' ∨ n.addr + n.span ≤ n'.addr ∨ n'.addr + n'.span ≤ n.addr := by
  by_cases e : n = n'
  · exact .inl e
  · exact .inr (h.apart.forall hn hn' e)

/-- Two free areas are the same or at least a `free_t` apart. -/
theorem free_apart {f g : ℕ × ℕ} (hf : f ∈ F) (hg : g ∈ F) :
    f.1 = g.1 ∨ f.1 + 32 ≤ g.1 ∨ g.1 + 32 ≤ f.1 := by
  obtain ⟨n, hn, hnf, hn32, -⟩ := h.inside f hf
  obtain ⟨n', hn', hng, hn32', -⟩ := h.inside g hg
  rcases h.eq_or_apart hn hn' with rfl | h | h <;> omega

/-- The links of a free area are not in a header. -/
theorem link_ne_header {f : ℕ × ℕ} (hf : f ∈ F) (hn : n ∈ N) {c : ℕ}
    (hc : c = n.addr ∨ c = n.addr + 8) : c ≠ f.1 + 16 ∧ c ≠ f.1 + 24 := by
  obtain ⟨n', hn', hnf, hn32, -⟩ := h.inside f hf
  have := h.room n hn
  rcases h.eq_or_apart hn hn' with rfl | h | h <;> omega

/-- The sizes of free areas inside nodes that are apart add up to less than the
address space. -/
theorem sum_lt_of_inside {G : List (ℕ × ℕ)} (hnodup : (G.map Prod.fst).Nodup)
    (hinside : ∀ f ∈ G, ∃ n ∈ N, n.addr = f.1 ∧ 32 ≤ n.span ∧ f.2 ≤ n.span) :
    (G.map Prod.snd).sum < 2 ^ 64 := by
  have hapart : G.Pairwise Ranges.Apart := by
    refine (List.pairwise_map.1 hnodup).imp_of_mem fun {f g} hf hg hne => ?_
    obtain ⟨n, hn, hnf, -, hfs⟩ := hinside f hf
    obtain ⟨n', hn', hng, -, hgs⟩ := hinside g hg
    rcases h.eq_or_apart hn hn' with rfl | hlt | hlt
    · exact absurd (hnf.symm.trans hng) hne
    · exact .inl (by omega)
    · exact .inr (by omega)
  have hle : (G.map Prod.snd).sum ≤ 2 ^ 64 - 1 := Ranges.sum_le_of_apart hapart fun f hf => by
    obtain ⟨n, hn, hnf, -, hfs⟩ := hinside f hf
    have := h.room n hn
    omega
  omega

theorem sum_lt : (F.map Prod.snd).sum < 2 ^ 64 :=
  h.sum_lt_of_inside h.nodup h.inside

end Core

/-- A word that is not a link of a free area may change. -/
theorem Lists.store {L : ℕ → List ℕ} {F : List (ℕ × ℕ)} {s : Heap} (h : Lists L F s) {c : ℕ}
    (hc : ∀ f ∈ F, c ≠ f.1 + 16 ∧ c ≠ f.1 + 24) (v : ℕ) : Lists L F (s.store c v) where
  head := h.head
  linked i := (h.linked i).congr fun x hx => by
    obtain ⟨z, hz, -⟩ := (h.mem_iff i x).1 hx
    have := hc _ hz
    exact ⟨Heap.store_of_ne (Ne.symm this.1) v s, Heap.store_of_ne (Ne.symm this.2) v s⟩
  nodup := h.nodup
  mem_iff := h.mem_iff
  bucket := h.bucket
  bit := h.bit
  remaining := h.remaining

namespace Core

variable {N A B : List Node} {F : List (ℕ × ℕ)} {s s' : Heap} {n n' : Node}

/-- A word outside the headers and the links may change. -/
theorem store (h : Core N F s) {c : ℕ} (hN : ∀ n ∈ N, c ≠ n.addr ∧ c ≠ n.addr + 8)
    (hF : ∀ f ∈ F, c ≠ f.1 + 16 ∧ c ≠ f.1 + 24) (v : ℕ) : Core N F (s.store c v) where
  header n hn := by
    obtain ⟨h₁, h₂⟩ := hN n hn
    rw [Heap.store_of_ne (Ne.symm h₁), Heap.store_of_ne (Ne.symm h₂)]
    exact h.header n hn
  apart := h.apart
  room := h.room
  inside := h.inside
  nodup := h.nodup
  lists := by
    obtain ⟨L, hL⟩ := h.lists
    exact ⟨L, hL.store hF v⟩

/-- The bytes behind the header of a node that is no free area may change. -/
theorem interior (h : Core N F s) (hn : n ∈ N) (hF : n.addr ∉ F.map Prod.fst)
    (hm : ∀ c, c < n.addr + 16 ∨ n.addr + n.span ≤ c → s'.mem c = s.mem c)
    (hl : s'.freeLists = s.freeLists) (hb : s'.freeListBits = s.freeListBits)
    (hr : s'.remaining = s.remaining) : Core N F s' where
  header m hmN := by
    have hroom := h.room m hmN
    have hroom' := h.room n hn
    rcases h.eq_or_apart hmN hn with rfl | hlt | hlt
    · rw [hm _ (by omega), hm _ (by omega)]
      exact h.header m hmN
    · rw [hm _ (by omega), hm _ (by omega)]
      exact h.header m hmN
    · rw [hm _ (by omega), hm _ (by omega)]
      exact h.header m hmN
  apart := h.apart
  room := h.room
  inside := h.inside
  nodup := h.nodup
  lists := by
    obtain ⟨L, hL⟩ := h.lists
    refine ⟨L, fun i => hl ▸ hL.head i, fun i => (hL.linked i).congr fun x hx => ?_, hL.nodup,
      hL.mem_iff, hL.bucket, fun i => hb ▸ hL.bit i, hr ▸ hL.remaining⟩
    obtain ⟨z, hz, -⟩ := (hL.mem_iff i x).1 hx
    obtain ⟨m, hmN, hmx, hm32, -⟩ := h.inside _ hz
    simp only at hmx
    have hne : m ≠ n := fun e => hF (List.mem_map.2 ⟨_, hz, by simp only [← hmx, e]⟩)
    have hroom' := h.room n hn
    rcases h.eq_or_apart hmN hn with e | hlt | hlt
    · exact absurd e hne
    · exact ⟨hm _ (by omega), hm _ (by omega)⟩
    · exact ⟨hm _ (by omega), hm _ (by omega)⟩

section

variable (h : Core (A ++ n :: B) F s)
include h

/-- The nodes other than `n`, and their distance from it. -/
theorem others {m : Node} (hm : m ∈ A ++ B) :
    m ∈ A ++ n :: B ∧ (m.addr + m.span ≤ n.addr ∨ n.addr + n.span ≤ m.addr) := by
  have hp := (List.perm_middle.pairwise_iff Ranges.Apart.symm).1 h.apart
  refine ⟨List.mem_append.2 ((List.mem_append.1 hm).imp id (List.mem_cons_of_mem _)), ?_⟩
  rcases (List.pairwise_cons.1 hp).1 m hm with hlt | hlt
  · exact .inr hlt
  · exact .inl hlt

/-- Another node takes the place of `n`, at the same address: what a header write
and a change of spans have in common. -/
theorem replace (ha : n'.addr = n.addr) (h16 : 16 ≤ n'.span)
    (hle : n'.span ≤ n.span) (hspan : n'.span = n.span ∨ n.addr ∉ F.map Prod.fst)
    (hheader : ∀ m ∈ A ++ n' :: B, s'.mem m.addr = m.left ∧ s'.mem (m.addr + 8) = m.size)
    (hlists : ∀ L, Lists L F s → Lists L F s') : Core (A ++ n' :: B) F s' where
  header := hheader
  apart := by
    have hp := (List.perm_middle.pairwise_iff Ranges.Apart.symm).1 h.apart
    refine (List.perm_middle.pairwise_iff Ranges.Apart.symm).2 (List.pairwise_cons.2
      ⟨fun m hm => ?_, (List.pairwise_cons.1 hp).2⟩)
    rcases (h.others hm).2 with hlt | hlt
    · exact .inr (by simp only; omega)
    · exact .inl (by simp only; omega)
  room m hm := by
    rcases List.mem_append.1 hm with hA | hB
    · exact h.room m (List.mem_append_left _ hA)
    · rcases List.mem_cons.1 hB with rfl | hB
      · have := h.room n (by simp)
        omega
      · exact h.room m (List.mem_append_right _ (List.mem_cons_of_mem _ hB))
  inside f hf := by
    obtain ⟨m, hm, hmf, hm'⟩ := h.inside f hf
    rcases List.mem_append.1 hm with hA | hB
    · exact ⟨m, List.mem_append_left _ hA, hmf, hm'⟩
    · rcases List.mem_cons.1 hB with rfl | hB
      · rcases hspan with hs | hs
        · exact ⟨n', by simp, ha.trans hmf, by rwa [hs]⟩
        · exact absurd (List.mem_map.2 ⟨f, hf, hmf.symm⟩) hs
      · exact ⟨m, List.mem_append_right _ (List.mem_cons_of_mem _ hB), hmf, hm'⟩
  nodup := h.nodup
  lists := by
    obtain ⟨L, hL⟩ := h.lists
    exact ⟨L, hlists L hL⟩

/-- **A header's `left` is written.** -/
theorem setLeft (v : ℕ) :
    Core (A ++ { n with left := v } :: B) F (s.store n.addr v) := by
  have hn : n ∈ A ++ n :: B := by simp
  refine h.replace rfl (h.room n hn).2.1 le_rfl (.inl rfl) (fun m hm => ?_)
    fun L hL => hL.store (fun f hf => h.link_ne_header hf hn (.inl rfl)) v
  rcases List.mem_cons.1 (List.perm_middle.mem_iff.1 hm) with rfl | hm
  · exact ⟨Heap.store_self .., by
      rw [Heap.store_of_ne (by simp only; omega)]; exact (h.header n hn).2⟩
  · obtain ⟨hmN, hlt⟩ := h.others hm
    have := (h.room m hmN).2.1
    have := (h.room n hn).2.1
    rw [Heap.store_of_ne (by omega), Heap.store_of_ne (by omega)]
    exact h.header m hmN

/-- **A header's `size` is written.** -/
theorem setSize (v : ℕ) :
    Core (A ++ { n with size := v } :: B) F (s.store (n.addr + 8) v) := by
  have hn : n ∈ A ++ n :: B := by simp
  refine h.replace rfl (h.room n hn).2.1 le_rfl (.inl rfl) (fun m hm => ?_)
    fun L hL => hL.store (fun f hf => h.link_ne_header hf hn (.inr rfl)) v
  rcases List.mem_cons.1 (List.perm_middle.mem_iff.1 hm) with rfl | hm
  · exact ⟨by rw [Heap.store_of_ne (by simp only; omega)]; exact (h.header n hn).1,
      Heap.store_self ..⟩
  · obtain ⟨hmN, hlt⟩ := h.others hm
    have := (h.room m hmN).2.1
    have := (h.room n hn).2.1
    rw [Heap.store_of_ne (by omega), Heap.store_of_ne (by omega)]
    exact h.header m hmN

/-- **`create_allocation_header`.** -/
theorem allocationHeader {address offset : ℕ} (ha : address + offset = n.addr) (size left : ℕ) :
    Core (A ++ { n with left := untag left, size := size } :: B) F
      (createAllocationHeader address offset size left s) := by
  rw [createAllocationHeader, ha]
  exact (h.setLeft (untag left)).setSize size

end

/-- No free area starts inside a node. -/
theorem not_mem_of_inside (h : Core N F s) (hn : n ∈ N) {c : ℕ} (hc : n.addr < c)
    (hc' : c < n.addr + n.span) : c ∉ F.map Prod.fst := by
  intro hm
  obtain ⟨f, hf, rfl⟩ := List.mem_map.1 hm
  obtain ⟨m, hm, hmf, hm32, -⟩ := h.inside f hf
  rcases h.eq_or_apart hn hm with rfl | hlt | hlt <;> omega

/-- Some of the nodes, when the free areas are among them. -/
theorem restrict {N' : List Node} (h : Core N F s) (hsub : N'.Sublist N)
    (hin : ∀ f ∈ F, ∃ n ∈ N', n.addr = f.1 ∧ 32 ≤ n.span ∧ f.2 ≤ n.span) : Core N' F s :=
  ⟨fun n hn => h.header n (hsub.subset hn), h.apart.sublist hsub,
    fun n hn => h.room n (hsub.subset hn), hin, h.nodup, h.lists⟩

/-- A node that is no free area is given up. -/
theorem forget (h : Core (A ++ n :: B) F s) (hF : n.addr ∉ F.map Prod.fst) : Core (A ++ B) F s where
  header m hm := h.header m (h.others hm).1
  apart := (List.pairwise_cons.1 ((List.perm_middle.pairwise_iff Ranges.Apart.symm).1 h.apart)).2
  room m hm := h.room m (h.others hm).1
  inside f hf := by
    obtain ⟨m, hm, hmf, hm'⟩ := h.inside f hf
    rcases List.mem_cons.1 (List.perm_middle.mem_iff.1 hm) with rfl | hm
    · exact absurd (List.mem_map.2 ⟨f, hf, hmf.symm⟩) hF
    · exact ⟨m, hm, hmf, hm'⟩
  nodup := h.nodup
  lists := h.lists

/-- Bytes that no node stands for become one. -/
theorem claim (h : Core (A ++ B) F s)
    (hroom : 0 < n.addr ∧ 16 ≤ n.span ∧ n.addr + n.span ≤ 2 ^ 64)
    (hapart : ∀ m ∈ A ++ B, m.addr + m.span ≤ n.addr ∨ n.addr + n.span ≤ m.addr)
    (hheader : s.mem n.addr = n.left ∧ s.mem (n.addr + 8) = n.size) : Core (A ++ n :: B) F s where
  header m hm := by
    rcases List.mem_cons.1 (List.perm_middle.mem_iff.1 hm) with rfl | hm
    · exact hheader
    · exact h.header m hm
  apart := (List.perm_middle.pairwise_iff Ranges.Apart.symm).2
    (List.pairwise_cons.2 ⟨fun m hm => (hapart m hm).symm, h.apart⟩)
  room m hm := by
    rcases List.mem_cons.1 (List.perm_middle.mem_iff.1 hm) with rfl | hm
    · exact hroom
    · exact h.room m hm
  inside f hf := by
    obtain ⟨m, hm, hmf⟩ := h.inside f hf
    exact ⟨m, List.perm_middle.mem_iff.2 (List.mem_cons_of_mem _ hm), hmf⟩
  nodup := h.nodup
  lists := h.lists

/-- **A node that is no free area is cut.**  The second part holds whatever words are
in memory there. -/
theorem split (h : Core (A ++ n :: B) F s) (hF : n.addr ∉ F.map Prod.fst) {k : ℕ} (hk : 16 ≤ k)
    (hk' : k + 16 ≤ n.span) :
    Core (A ++ { n with span := k } ::
      ⟨n.addr + k, n.span - k, s.mem (n.addr + k), s.mem (n.addr + k + 8)⟩ :: B) F s := by
  have hroom := h.room n (by simp)
  have h₁ : Core (A ++ { n with span := k } :: B) F s := by
    refine h.replace rfl hk (by simp only; omega) (.inr hF) (fun m hm => ?_) fun _ hL => hL
    rcases List.mem_cons.1 (List.perm_middle.mem_iff.1 hm) with rfl | hm
    · exact h.header n (by simp)
    · exact h.header m (h.others hm).1
  have h₂ : Core ((A ++ [{ n with span := k }]) ++ B) F s := by simpa using h₁
  have h₃ := h₂.claim (n := ⟨n.addr + k, n.span - k, s.mem (n.addr + k), s.mem (n.addr + k + 8)⟩)
    (by simp only; omega) (fun m hm => ?_) ⟨rfl, rfl⟩
  · simpa using h₃
  · simp only [List.append_assoc, List.singleton_append] at hm
    rcases List.mem_cons.1 (List.perm_middle.mem_iff.1 hm) with rfl | hm
    · exact .inl le_rfl
    · have := (h.others hm).2
      simp only
      omega

/-- **Two neighbours that are no free areas become one node.** -/
theorem join (h : Core (A ++ n :: n' :: B) F s) (hF : n.addr ∉ F.map Prod.fst)
    (hF' : n'.addr ∉ F.map Prod.fst) (hn' : n'.addr = n.addr + n.span) :
    Core (A ++ { n with span := n.span + n'.span } :: B) F s := by
  have hroom := h.room n (by simp)
  have hroom' := h.room n' (by simp)
  have h' : Core ((A ++ [n]) ++ n' :: B) F s := by simpa using h
  refine (h.forget hF |>.forget hF').claim (by simp only; omega) (fun m hm => ?_)
    (h.header n (by simp))
  have h₁ := (h.others (m := m) (by simp at hm ⊢; tauto)).2
  have h₂ := (h'.others (m := m) (by simp at hm ⊢; tauto)).2
  have := (h.room m (by simp at hm ⊢; tauto)).2.1
  simp only
  omega

/-- An area is on the list of its bucket and on no other. -/
theorem bucket_unique (h : Core N F s) {L : ℕ → List ℕ} (hL : Lists L F s) {a i j : ℕ}
    (hi : a ∈ L i) (hj : a ∈ L j) : i = j := by
  obtain ⟨z, hz, hzi⟩ := (hL.mem_iff i a).1 hi
  obtain ⟨z', hz', hzj⟩ := (hL.mem_iff j a).1 hj
  have : (a, z) = (a, z') := List.inj_on_of_nodup_map h.nodup hz hz' rfl
  rw [(Prod.mk.inj this).2] at hzi
  exact Option.some.inj (hzi.symm.trans hzj)

theorem free_pos (h : Core N F s) {f : ℕ × ℕ} (hf : f ∈ F) : f.1 ≠ 0 := by
  obtain ⟨n, hn, hnf, -⟩ := h.inside f hf
  have := (h.room n hn).1
  omega

theorem list_ne_zero (h : Core N F s) {L : ℕ → List ℕ} (hL : Lists L F s) {i x : ℕ}
    (hx : x ∈ L i) : x ≠ 0 := by
  obtain ⟨z, hz, -⟩ := (hL.mem_iff i x).1 hx
  exact h.free_pos hz

end Core

section Push

theorem linkFreeArea_mem (a o : ℕ) (s : Heap) (c : ℕ) :
    (linkFreeArea a o s).mem c =
      if c = a + 24 then 0 else if c = a + 16 then o
      else if o ≠ 0 ∧ c = o + 24 then a else s.mem c := by
  by_cases ho : o = 0 <;> simp [linkFreeArea, Heap.store, update_apply, ho]

theorem linkFreeArea_outer (a o : ℕ) (s : Heap) :
    (linkFreeArea a o s).outer = s.outer ∧ (linkFreeArea a o s).freeLists = s.freeLists ∧
      (linkFreeArea a o s).freeListBits = s.freeListBits ∧
      (linkFreeArea a o s).remaining = s.remaining := by
  by_cases ho : o = 0 <;> simp [linkFreeArea, Heap.store, Heap.outer, ho]

variable {N A B : List Node} {F : List (ℕ × ℕ)} {s s' : Heap} {n : Node} {L : ℕ → List ℕ}
  {z i : ℕ}

theorem Lists.exists_of_mem (hL : Lists L F s) {x : ℕ} (hx : x ∈ L i) : ∃ f ∈ F, f.1 = x := by
  obtain ⟨z, hz, -⟩ := (hL.mem_iff i x).1 hx
  exact ⟨_, hz, rfl⟩

theorem Lists.head_mem (hL : Lists L F s) (h0 : s.freeLists i ≠ 0) : s.freeLists i ∈ L i := by
  rw [hL.head] at h0 ⊢
  cases hl : L i with
  | nil => simp [hl] at h0
  | cons x xs => exact List.mem_cons_self

/-- A new area is on the list of its bucket, and the lists have no other. -/
theorem Lists.mem_push (hL : Lists L F s) (hi : areaBucket z = some i) (a j x : ℕ) :
    x ∈ update L i (a :: L i) j ↔ ∃ z', (x, z') ∈ (a, z) :: F ∧ areaBucket z' = some j := by
  have hcons : (∃ z', (x, z') ∈ (a, z) :: F ∧ areaBucket z' = some j) ↔
      x = a ∧ j = i ∨ x ∈ L j := by
    rw [hL.mem_iff]
    constructor
    · rintro ⟨z', hz', hb⟩
      rcases List.mem_cons.1 hz' with e | hz'
      · obtain ⟨rfl, rfl⟩ := Prod.mk.inj e
        exact .inl ⟨rfl, Option.some.inj (hb.symm.trans hi)⟩
      · exact .inr ⟨z', hz', hb⟩
    · rintro (⟨rfl, rfl⟩ | ⟨z', hz', hb⟩)
      · exact ⟨z, List.mem_cons_self, hi⟩
      · exact ⟨z', List.mem_cons_of_mem _ hz', hb⟩
  rw [hcons]
  by_cases hj : j = i
  · subst hj
    rw [update_self, List.mem_cons, and_iff_left rfl]
  · rw [update_of_ne hj, or_iff_right fun e => hj e.2]

variable (h : Core N F s) (hL : Lists L F s) (hn : n ∈ N) (h32 : 32 ≤ n.span)
  (hF : n.addr ∉ F.map Prod.fst) (i)

include h hL hn h32 hF

/-- Linking an area writes its own links and the back link of the old head, so no header and
no other link. -/
theorem Core.link_mem :
    (∀ f ∈ F, (linkFreeArea n.addr (s.freeLists i) s).mem (f.1 + 16) = s.mem (f.1 + 16) ∧
      (linkFreeArea n.addr (s.freeLists i) s).mem (f.1 + 24) =
        if f.1 = s.freeLists i then n.addr else s.mem (f.1 + 24)) ∧
    ∀ m ∈ N, ∀ c, c = m.addr ∨ c = m.addr + 8 →
      (linkFreeArea n.addr (s.freeLists i) s).mem c = s.mem c := by
  have hold : s.freeLists i ≠ 0 → ∃ f ∈ F, f.1 = s.freeLists i := fun h0 =>
    hL.exists_of_mem (hL.head_mem h0)
  refine ⟨fun f hf => ?_, fun m hm c hc => ?_⟩
  · -- the other areas are at least a `free_t` away from the new one
    have hfar : f.1 + 32 ≤ n.addr ∨ n.addr + 32 ≤ f.1 := by
      obtain ⟨m, hm, hmf, hm32, -⟩ := h.inside f hf
      have hne : f.1 ≠ n.addr := fun e => hF (List.mem_map.2 ⟨f, hf, e⟩)
      rcases h.eq_or_apart hm hn with rfl | hlt | hlt <;> omega
    have hf0 := h.free_pos hf
    constructor
    · rw [linkFreeArea_mem, if_neg (by omega), if_neg (by omega), if_neg]
      rintro ⟨h0, he⟩
      obtain ⟨g, hg, hgo⟩ := hold h0
      rcases h.free_apart hf hg with h | h | h <;> omega
    · rw [linkFreeArea_mem, if_neg (by omega), if_neg (by omega)]
      by_cases he : f.1 = s.freeLists i
      · rw [if_pos ⟨he ▸ hf0, by omega⟩, if_pos he]
      · rw [if_neg (by omega), if_neg he]
  · have hroom := h.room m hm
    have hown : c ≠ n.addr + 24 ∧ c ≠ n.addr + 16 := by
      rcases h.eq_or_apart hm hn with rfl | hlt | hlt <;> omega
    rw [linkFreeArea_mem, if_neg hown.1, if_neg hown.2, if_neg]
    rintro ⟨h0, he⟩
    obtain ⟨g, hg, hgo⟩ := hold h0
    exact (h.link_ne_header hg hm hc).2 (by omega)

/-- The list of the bucket is linked with the new area in front, and the others as before. -/
theorem Core.link_linked (j : ℕ) :
    Linked 0 (fun a => (linkFreeArea n.addr (s.freeLists i) s).mem (a + 16))
      (fun a => (linkFreeArea n.addr (s.freeLists i) s).mem (a + 24)) 0
      (update L i (n.addr :: L i) j) := by
  have hmem := (h.link_mem i hL hn h32 hF).1
  by_cases hj : j = i
  · subst hj
    rw [update_self]
    refine (hL.linked j).push (hL.nodup j) ?_ ?_ (fun x hx => ?_) fun x hx => ?_
    · simp only [linkFreeArea_mem]
      rw [if_neg (by omega), if_pos trivial, hL.head]
    · simp [linkFreeArea_mem]
    · obtain ⟨f, hf, rfl⟩ := hL.exists_of_mem hx
      exact (hmem f hf).1
    · obtain ⟨f, hf, rfl⟩ := hL.exists_of_mem hx
      rw [← hL.head]
      exact (hmem f hf).2
  · rw [update_of_ne hj]
    refine (hL.linked j).congr fun x hx => ?_
    obtain ⟨f, hf, rfl⟩ := hL.exists_of_mem hx
    refine ⟨(hmem f hf).1, (hmem f hf).2.trans (if_neg fun e => hj ?_)⟩
    -- the old head is on list `i` alone
    exact h.bucket_unique hL hx (e ▸ hL.head_mem (e ▸ h.free_pos hf))

omit hL

/-- A node that is no free area yet is put in front of the list of its bucket. -/
theorem Core.link (hz : z ≤ n.span) (hi : areaBucket z = some i) :
    Core N ((n.addr, z) :: F)
      { linkFreeArea n.addr (s.freeLists i) s with
        freeListBits := setFreeListBit s.freeListBits i
        freeLists := update s.freeLists i n.addr
        remaining := u64 (s.remaining + z) } := by
  obtain ⟨L, hL⟩ := h.lists
  have hnodup : ((n.addr, z) :: F).map Prod.fst |>.Nodup := List.nodup_cons.2 ⟨hF, h.nodup⟩
  have hinside : ∀ f ∈ (n.addr, z) :: F, ∃ m ∈ N, m.addr = f.1 ∧ 32 ≤ m.span ∧ f.2 ≤ m.span :=
    List.forall_mem_cons.2 ⟨⟨n, hn, rfl, h32, hz⟩, h.inside⟩
  have hnotin : n.addr ∉ L i := fun hx => by
    obtain ⟨f, hf, e⟩ := hL.exists_of_mem hx
    exact hF (List.mem_map.2 ⟨f, hf, e⟩)
  have hsum := h.sum_lt_of_inside hnodup hinside
  have hcell := (h.link_mem i hL hn h32 hF).2
  refine ⟨fun m hm => ⟨(hcell m hm _ (.inl rfl)).trans (h.header m hm).1,
      (hcell m hm _ (.inr rfl)).trans (h.header m hm).2⟩, h.apart, h.room, hinside, hnodup,
    update L i (n.addr :: L i), fun j => ?_, h.link_linked i hL hn h32 hF, ?_,
    hL.mem_push hi n.addr, List.forall_mem_cons.2 ⟨by simp [hi], hL.bucket⟩, fun j => ?_, ?_⟩
  · by_cases hj : j = i
    · subst hj; simp
    · simpa [hj] using hL.head j
  · exact (forall_update_iff L fun _ l => l.Nodup).2
      ⟨List.nodup_cons.2 ⟨hnotin, hL.nodup i⟩, fun j _ => hL.nodup j⟩
  · by_cases hj : j = i
    · subst hj; simp
    · simpa [hj] using hL.bit j
  · simp only [List.map_cons, List.sum_cons] at hsum ⊢
    rw [hL.remaining, u64_of_lt (by omega), Nat.add_comm]

omit h hn h32 hF

/-- **`create_free_area`** on a node that is no free area yet. -/
theorem Core.push (h : Core (A ++ n :: B) F s) {left : ℕ} (h32 : 32 ≤ n.span)
    (hz : z ≤ n.span) (hF : n.addr ∉ F.map Prod.fst)
    (hs : createFreeArea n.addr left z none s = some s') :
    Core (A ++ { n with left := tagAsFree left, size := z } :: B) ((n.addr, z) :: F) s' ∧
      s'.outer = s.outer := by
  simp only [createFreeArea, Option.bind_eq_bind, Option.bind_eq_some_iff, Option.some.injEq] at hs
  obtain ⟨i, hi, rfl⟩ := hs
  have h₁ := (h.setSize z).setLeft (tagAsFree left)
  have hl := linkFreeArea_outer n.addr
    (((s.store (n.addr + 8) z).store n.addr (tagAsFree left)).freeLists i)
    ((s.store (n.addr + 8) z).store n.addr (tagAsFree left))
  refine ⟨?_, hl.1⟩
  have h₂ := h₁.link i (n := { n with left := tagAsFree left, size := z }) (by simp) h32 hF hz hi
  simpa only [hl.2.1, hl.2.2.1, hl.2.2.2] using h₂

end Push

section Unlink

/-- What `unlink_free` leaves, when the `ASSERT` holds. -/
theorem unlinkFree_eq_some {a b : ℕ} {s s' : Heap} (hs : unlinkFree a b s = some s') :
    (∀ c, s'.mem c =
      if s.mem (a + 16) ≠ 0 ∧ c = s.mem (a + 16) + 24 then s.mem (a + 24)
      else if s.mem (a + 24) ≠ 0 ∧ c = s.mem (a + 24) + 16 then s.mem (a + 16) else s.mem c) ∧
    s'.freeLists = (if s.freeLists b = a then update s.freeLists b (s.mem (a + 16))
      else s.freeLists) ∧
    s'.freeListBits = (if s.freeLists b = a ∧ s.mem (a + 16) = 0 then
      clearFreeListBit s.freeListBits b else s.freeListBits) ∧
    s'.remaining = sub64 s.remaining (s.mem (a + 8)) ∧ s'.outer = s.outer := by
  simp only [unlinkFree] at hs
  split at hs
  · cases hs
  · cases hs
    by_cases hn : s.mem (a + 16) = 0 <;> by_cases hp : s.mem (a + 24) = 0 <;>
      by_cases hh : s.freeLists b = a <;>
      simp [hn, hp, hh, Heap.store, Heap.outer, update_apply]

variable {N : List Node} {F : List (ℕ × ℕ)} {s s' : Heap} {n : Node} {L : ℕ → List ℕ}
  {a z b : ℕ} {xs ys : List ℕ}

/-- The lists without `a` have the areas that are not `a`. -/
theorem Core.mem_unlinked (h : Core N F s) (hL : Lists L F s) (hxy : L b = xs ++ a :: ys)
    (i x : ℕ) : x ∈ update L b (xs ++ ys) i ↔ x ∈ L i ∧ x ≠ a := by
  have hnd := hL.nodup b
  rw [hxy, List.perm_middle.nodup_iff] at hnd
  have haxy : a ∉ xs ++ ys := (List.nodup_cons.1 hnd).1
  by_cases hi : i = b
  · subst hi
    rw [update_self, hxy, List.perm_middle.mem_iff, List.mem_cons]
    constructor
    · exact fun hx => ⟨.inr hx, fun e => haxy (e ▸ hx)⟩
    · rintro ⟨rfl | hx, hxa⟩
      · exact absurd rfl hxa
      · exact hx
  · rw [update_of_ne hi]
    exact ⟨fun hx => ⟨hx, fun e => hi (h.bucket_unique hL (e ▸ hx) (hxy ▸ by simp))⟩, And.left⟩

variable (h : Core N ((a, z) :: F) s) (hL : Lists L ((a, z) :: F) s) (hxy : L b = xs ++ a :: ys)
  (hs : unlinkFree a b s = some s')

include h hL hxy

theorem Core.exists_unlinked {i x : ℕ} (hx : x ∈ update L b (xs ++ ys) i) : ∃ f ∈ F, f.1 = x := by
  obtain ⟨hx, hxa⟩ := (h.mem_unlinked hL hxy i x).1 hx
  obtain ⟨f, hf, rfl⟩ := hL.exists_of_mem hx
  rcases List.mem_cons.1 hf with rfl | hf
  · exact absurd rfl hxa
  · exact ⟨f, hf, rfl⟩

include hs

/-- Unlinking an area writes the forward link of the one before it and the back link of the
one behind it, so no header and no other link. -/
theorem Core.unlink_mem :
    (∀ f ∈ F, s'.mem (f.1 + 16) =
        (if f.1 = s.mem (a + 24) then s.mem (a + 16) else s.mem (f.1 + 16)) ∧
      s'.mem (f.1 + 24) = if f.1 = s.mem (a + 16) then s.mem (a + 24) else s.mem (f.1 + 24)) ∧
    ∀ m ∈ N, ∀ c, c = m.addr ∨ c = m.addr + 8 → s'.mem c = s.mem c := by
  have hmem := (unlinkFree_eq_some hs).1
  have hlb := hL.linked b
  rw [hxy] at hlb
  -- the neighbours, where there are any, are free areas
  have hon : ∀ x ∈ xs ++ ys, ∃ f ∈ F, f.1 = x := fun x hx =>
    h.exists_unlinked hL hxy (i := b) (by rwa [update_self])
  have hnext : s.mem (a + 16) ≠ 0 → ∃ f ∈ F, f.1 = s.mem (a + 16) := fun h0 =>
    hon _ (hlb.next_mem h0)
  have hprev : s.mem (a + 24) ≠ 0 → ∃ f ∈ F, f.1 = s.mem (a + 24) := fun h0 =>
    hon _ (hlb.prev_mem h0)
  refine ⟨fun f hf => ?_, fun m hm c hc => ?_⟩
  · have hf := List.mem_cons_of_mem (a, z) hf
    have hf0 := h.free_pos hf
    constructor
    · rw [hmem, if_neg]
      · by_cases he : f.1 = s.mem (a + 24)
        · rw [if_pos he, if_pos ⟨he ▸ hf0, by omega⟩]
        · rw [if_neg he, if_neg (by omega)]
      · rintro ⟨h0, he⟩
        obtain ⟨g, hg, hgx⟩ := hnext h0
        rcases h.free_apart hf (List.mem_cons_of_mem _ hg) with h | h | h <;> omega
    · rw [hmem]
      by_cases he : f.1 = s.mem (a + 16)
      · rw [if_pos he, if_pos ⟨he ▸ hf0, by omega⟩]
      · rw [if_neg (by omega), if_neg he, if_neg]
        rintro ⟨h0, he'⟩
        obtain ⟨g, hg, hgx⟩ := hprev h0
        rcases h.free_apart hf (List.mem_cons_of_mem _ hg) with h | h | h <;> omega
  · rw [hmem, if_neg, if_neg]
    · rintro ⟨h0, he⟩
      obtain ⟨g, hg, hgx⟩ := hprev h0
      exact (h.link_ne_header (List.mem_cons_of_mem _ hg) hm hc).1 (by omega)
    · rintro ⟨h0, he⟩
      obtain ⟨g, hg, hgx⟩ := hnext h0
      exact (h.link_ne_header (List.mem_cons_of_mem _ hg) hm hc).2 (by omega)

/-- The list of the bucket is linked without the area, and the others as before. -/
theorem Core.unlink_linked (i : ℕ) : Linked 0 (fun a => s'.mem (a + 16))
    (fun a => s'.mem (a + 24)) 0 (update L b (xs ++ ys) i) := by
  have hmem := (h.unlink_mem hL hxy hs).1
  have hlb := hL.linked b
  have hnd := hL.nodup b
  have hnull : (0 : ℕ) ∉ L b := fun h0 => h.list_ne_zero hL h0 rfl
  rw [hxy] at hlb hnd hnull
  have hon : ∀ x ∈ xs ++ ys, ∃ f ∈ F, f.1 = x := fun x hx =>
    h.exists_unlinked hL hxy (i := b) (by rwa [update_self])
  by_cases hi : i = b
  · subst hi
    rw [update_self]
    refine hlb.remove (List.nodup_cons.2 ⟨hnull, hnd⟩) hnull (fun x hx => ?_) fun x hx => ?_
    · obtain ⟨f, hf, rfl⟩ := hon x hx
      exact (hmem f hf).1
    · obtain ⟨f, hf, rfl⟩ := hon x hx
      exact (hmem f hf).2
  · have hel : ∀ x ∈ update L b (xs ++ ys) i, ∃ f ∈ F, f.1 = x := fun x =>
      h.exists_unlinked hL hxy
    rw [update_of_ne hi] at hel ⊢
    refine (hL.linked i).congr fun x hx => ?_
    -- a neighbour of the area is on list `b`, so it is not `x`
    have hne : x ∉ xs ++ ys := fun hm => hi (h.bucket_unique hL hx
      (hxy ▸ List.perm_middle.mem_iff.2 (List.mem_cons_of_mem _ hm)))
    have hx0 := h.list_ne_zero hL hx
    obtain ⟨f, hf, rfl⟩ := hel x hx
    have hxp : f.1 ≠ s.mem (a + 24) := fun e => hne (e ▸ hlb.prev_mem fun e' => hx0 (e.trans e'))
    have hxn : f.1 ≠ s.mem (a + 16) := fun e => hne (e ▸ hlb.next_mem fun e' => hx0 (e.trans e'))
    exact ⟨(hmem f hf).1.trans (if_neg hxp), (hmem f hf).2.trans (if_neg hxn)⟩

/-- The first areas and the bits are those of the lists without the area. -/
theorem Core.unlink_heads (i : ℕ) : s'.freeLists i = (update L b (xs ++ ys) i).headD 0 ∧
    freeListBit s'.freeListBits i = !(update L b (xs ++ ys) i).isEmpty := by
  obtain ⟨-, hlists, hbits, -⟩ := unlinkFree_eq_some hs
  have hlb := hL.linked b
  have hnd := hL.nodup b
  have hhead := hL.head b
  have hbit := hL.bit i
  have hnull : (0 : ℕ) ∉ L b := fun h0 => h.list_ne_zero hL h0 rfl
  rw [hxy] at hlb hnd hhead hnull
  have hnext : s.mem (a + 16) = ys.headD 0 := hlb.next_of_append
  rw [hlists, hbits]
  by_cases hi : i = b
  · subst hi
    rw [update_self]
    cases xs with
    | cons x xs =>
      have hxa : x ≠ a := fun e => (List.nodup_cons.1 hnd).1 (by simp [e])
      rw [if_neg (by rw [hhead]; simpa using hxa), if_neg (by rw [hhead]; simp [hxa]), hhead,
        hbit, hxy]
      exact ⟨rfl, rfl⟩
    | nil =>
      refine ⟨by rw [if_pos (by simpa using hhead), update_self, hnext, List.nil_append], ?_⟩
      cases ys with
      | nil =>
        rw [if_pos ⟨by simpa using hhead, by simpa using hnext⟩]
        simp
      | cons y ys =>
        have hy0 : y ≠ 0 := fun e => hnull (by simp [e])
        rw [if_neg (by rw [hnext]; simp [hy0]), hbit, hxy]
        rfl
  · rw [update_of_ne hi, ← hbit]
    constructor
    · split_ifs
      · rw [update_of_ne hi, hL.head]
      · exact hL.head i
    · split_ifs
      · simp [hi]
      · rfl

omit h hL hxy hs

/-- **`unlink_free`** on an area that is on the list of its bucket. -/
theorem Core.unlink (h : Core N ((a, z) :: F) s) (hn : n ∈ N) (ha : n.addr = a) (hz : n.size = z)
    (hb : areaBucket z = some b) (hs : unlinkFree a b s = some s') :
    Core N F s' ∧ s'.outer = s.outer := by
  obtain ⟨-, -, -, hrem, houter⟩ := unlinkFree_eq_some hs
  refine ⟨?_, houter⟩
  obtain ⟨L, hL⟩ := h.lists
  obtain ⟨xs, ys, hxy⟩ := List.append_of_mem ((hL.mem_iff b a).2 ⟨z, List.mem_cons_self, hb⟩)
  have hFa : ∀ f ∈ F, f.1 ≠ a := fun f hf e =>
    (List.nodup_cons.1 h.nodup).1 (List.mem_map.2 ⟨f, hf, e⟩)
  have hcell := (h.unlink_mem hL hxy hs).2
  have hheads := h.unlink_heads hL hxy hs
  refine ⟨fun m hm => ⟨(hcell m hm _ (.inl rfl)).trans (h.header m hm).1,
      (hcell m hm _ (.inr rfl)).trans (h.header m hm).2⟩, h.apart, h.room,
    fun f hf => h.inside f (List.mem_cons_of_mem _ hf), (List.nodup_cons.1 h.nodup).2,
    update L b (xs ++ ys), fun i => (hheads i).1, h.unlink_linked hL hxy hs, ?_, fun i x => ?_,
    fun f hf => hL.bucket f (List.mem_cons_of_mem _ hf), fun i => (hheads i).2, ?_⟩
  · have hnd := hL.nodup b
    rw [hxy, List.perm_middle.nodup_iff] at hnd
    exact (forall_update_iff L fun _ l => l.Nodup).2
      ⟨(List.nodup_cons.1 hnd).2, fun i _ => hL.nodup i⟩
  · rw [h.mem_unlinked hL hxy, hL.mem_iff]
    constructor
    · rintro ⟨⟨z', hz', hb'⟩, hxa⟩
      rcases List.mem_cons.1 hz' with e | hz'
      · exact absurd (Prod.mk.inj e).1 hxa
      · exact ⟨z', hz', hb'⟩
    · rintro ⟨z', hz', hb'⟩
      exact ⟨⟨z', List.mem_cons_of_mem _ hz', hb'⟩, hFa _ hz'⟩
  · have hsum := h.sum_lt
    have hsize : s.mem (a + 8) = z := by
      rw [← ha, (h.header n hn).2, hz]
    simp only [List.map_cons, List.sum_cons] at hsum
    rw [hrem, hL.remaining, hsize, List.map_cons, List.sum_cons,
      sub64_of_le hsum (Nat.le_add_right _ _), Nat.add_sub_cancel_left]

end Unlink

end Cmpct
end LittleKernel
