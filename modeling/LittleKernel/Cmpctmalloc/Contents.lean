/-
# The callers' bytes

What `cmpct_alloc` and `cmpct_free` of `lib/heap/cmpctmalloc/cmpctmalloc.c` leave of the
blocks that are in use: no word behind the header of such a block changes, unless the block
is the one that is freed.

The calls write headers, and the links of free areas.  A link that is written while a call
is at work may belong to an area that another link named before it, so it is not enough to
know the lists at the start.  `LinksIn` is what stays true in between: the heads of the
lists and the links of the free areas name free areas alone.
-/

import LittleKernel.Cmpctmalloc.Resize

namespace LittleKernel
namespace Cmpct

open Word

section Links

variable {N : List Node} {F : List (ℕ × ℕ)} {s s' : Heap} {a b c : ℕ}

/-- `NULL` or the address of a free area. -/
def Link (F : List (ℕ × ℕ)) (a : ℕ) : Prop := a = 0 ∨ a ∈ F.map Prod.fst

/-- The heads of the lists and the links of the areas are links. -/
structure LinksIn (F : List (ℕ × ℕ)) (s : Heap) : Prop where
  head : ∀ i, Link F (s.freeLists i)
  next : ∀ a ∈ F.map Prod.fst, Link F (s.mem (a + 16))
  prev : ∀ a ∈ F.map Prod.fst, Link F (s.mem (a + 24))

/-- The word at `c` is no link of a free area. -/
def Off (F : List (ℕ × ℕ)) (c : ℕ) : Prop := ∀ a ∈ F.map Prod.fst, c ≠ a + 16 ∧ c ≠ a + 24

theorem Core.linksIn (h : Core N F s) : LinksIn F s := by
  obtain ⟨L, hL⟩ := h.lists
  have hlist : ∀ i, ∀ x ∈ L i, x ∈ F.map Prod.fst := fun i x hx => by
    obtain ⟨z, hz, -⟩ := (hL.mem_iff i x).1 hx
    exact List.mem_map.2 ⟨_, hz, rfl⟩
  have hplace : ∀ a ∈ F.map Prod.fst, ∃ i xs ys, L i = xs ++ a :: ys := fun a ha => by
    obtain ⟨⟨a, z⟩, hf, rfl⟩ := List.mem_map.1 ha
    obtain ⟨i, hi⟩ := Option.isSome_iff_exists.1 (hL.bucket _ hf)
    obtain ⟨xs, ys, hxy⟩ := List.append_of_mem ((hL.mem_iff i a).2 ⟨z, hf, hi⟩)
    exact ⟨i, xs, ys, hxy⟩
  refine ⟨fun i => ?_, fun a ha => ?_, fun a ha => ?_⟩
  · rw [hL.head]
    cases hl : L i with
    | nil => exact .inl rfl
    | cons x xs => exact .inr (hlist i x (by simp [hl]))
  · obtain ⟨i, xs, ys, hxy⟩ := hplace a ha
    rw [show s.mem (a + 16) = ys.headD 0 from (hxy ▸ hL.linked i).next_of_append]
    cases ys with
    | nil => exact .inl rfl
    | cons y ys => exact .inr (hlist i y (by simp [hxy]))
  · obtain ⟨i, xs, ys, hxy⟩ := hplace a ha
    rw [show s.mem (a + 24) = xs.getLastD 0 from (hxy ▸ hL.linked i).prev_of_append]
    cases xs with
    | nil => exact .inl rfl
    | cons x xs =>
      refine .inr (hlist i _ ?_)
      rw [List.getLastD_cons, hxy]
      exact List.mem_append_left _ List.getLastD_mem_cons

/-- No header is a link. -/
theorem Core.off_header (h : Core N F s) {n : Node} (hn : n ∈ N) :
    Off F n.addr ∧ Off F (n.addr + 8) := by
  refine ⟨fun a ha => ?_, fun a ha => ?_⟩
  · obtain ⟨f, hf, rfl⟩ := List.mem_map.1 ha
    exact h.link_ne_header hf hn (.inl rfl)
  · obtain ⟨f, hf, rfl⟩ := List.mem_map.1 ha
    exact h.link_ne_header hf hn (.inr rfl)

namespace LinksIn

variable (h : LinksIn F s)
include h

theorem store (hc : Off F c) (v : ℕ) : LinksIn F (s.store c v) := by
  refine ⟨h.head, fun a ha => ?_, fun a ha => ?_⟩
  · rw [Heap.store_of_ne (hc a ha).1.symm]
    exact h.next a ha
  · rw [Heap.store_of_ne (hc a ha).2.symm]
    exact h.prev a ha

theorem unlink (ha : a ∈ F.map Prod.fst) (hs : unlinkFree a b s = some s') :
    LinksIn F s' := by
  obtain ⟨hmem, hlists, -⟩ := unlinkFree_eq_some hs
  -- whatever is written is a link of the area that is taken out
  have hcell : ∀ c, Link F (s.mem c) → Link F (s'.mem c) := fun c hc => by
    rw [hmem]
    split_ifs
    · exact h.prev a ha
    · exact h.next a ha
    · exact hc
  refine ⟨fun i => ?_, fun x hx => hcell _ (h.next x hx), fun x hx => hcell _ (h.prev x hx)⟩
  rw [hlists]
  split_ifs
  · by_cases hi : i = b
    · rw [hi, Function.update_self]
      exact h.next a ha
    · rw [Function.update_of_ne hi]
      exact h.head i
  · exact h.head i

/-- `unlink_free` writes links. -/
theorem unlink_mem (ha : a ∈ F.map Prod.fst) (hs : unlinkFree a b s = some s')
    (hc : Off F c) : s'.mem c = s.mem c := by
  rw [(unlinkFree_eq_some hs).1, if_neg, if_neg]
  · rintro ⟨h0, he⟩
    exact (hc _ ((h.prev a ha).resolve_left h0)).1 he
  · rintro ⟨h0, he⟩
    exact (hc _ ((h.next a ha).resolve_left h0)).2 he

theorem unlinkUnknown (ha : a ∈ F.map Prod.fst) (hs : unlinkFreeUnknownBucket a s = some s') :
    LinksIn F s' ∧ ∀ c, Off F c → s'.mem c = s.mem c := by
  simp only [unlinkFreeUnknownBucket, Option.bind_eq_bind, Option.bind_eq_some_iff] at hs
  obtain ⟨b, -, hs⟩ := hs
  exact ⟨h.unlink ha hs, fun c hc => h.unlink_mem ha hs hc⟩

/-- `create_free_area` writes the new area and a link of the one that was the first. -/
theorem createFreeArea_mem {address left size : ℕ} {bucket : Option ℕ}
    (hb : ∀ o ∈ bucket, o = 0) (hs : createFreeArea address left size bucket s = some s')
    (hc : Off F c) (hout : c < address ∨ address + 32 ≤ c) : s'.mem c = s.mem c := by
  have hlinked : ∀ (t : Heap) (o : ℕ), t.mem c = s.mem c → Link F o →
      (linkFreeArea address o t).mem c = s.mem c := fun t o ht ho => by
    rw [linkFreeArea_mem, if_neg (by omega), if_neg (by omega), if_neg, ht]
    rintro ⟨h0, he⟩
    exact (hc _ (ho.resolve_left h0)).2 he
  have hheader : ((s.store (address + 8) size).store address (tagAsFree left)).mem c = s.mem c := by
    rw [Heap.store_of_ne (by omega), Heap.store_of_ne (by omega)]
  cases bucket with
  | none =>
    simp only [createFreeArea, Option.bind_eq_bind, Option.bind_eq_some_iff,
      Option.some.injEq] at hs
    obtain ⟨i, -, rfl⟩ := hs
    exact hlinked _ _ hheader (h.head i)
  | some o =>
    simp only [createFreeArea, Option.some.injEq] at hs
    subst hs
    exact hlinked _ _ hheader (.inl (hb o rfl))

end LinksIn

theorem Heap.unlock_mem (s : Heap) : s.unlock.mem = s.mem := rfl

theorem createAllocationHeader_mem {address size left : ℕ} (hc : c ≠ address)
    (hc' : c ≠ address + 8) : (createAllocationHeader address 0 size left s).mem c = s.mem c := by
  rw [createAllocationHeader, Heap.store_of_ne (by simpa using hc'),
    Heap.store_of_ne (by simpa using hc)]

end Links

/-- The word at `c` is in the block `f`, behind its header. -/
def InBlock (f : ℕ × ℕ) (c : ℕ) : Prop := f.1 + 16 ≤ c ∧ c + 8 ≤ f.1 + f.2

section Places

variable {R : List Region} {s s' : Heap} {f g : ℕ × ℕ} {b : Bool} {c : ℕ}

/-- Behind an area there is a header. -/
theorem exists_header_behind (hg : g ∈ areasOf b R) : ∃ n ∈ nodesOf R, n.addr = g.1 + g.2 := by
  obtain ⟨h, rfl, ha⟩ := Hole.exists_of_mem_areasOf hg
  refine ⟨follow h.addr (h.addr + g.2) h.post, (h.nodes_fill _).mem_iff.2 ?_, ?_⟩
  · simp [front, lastHeader]
  · rw [follow_addr, ha]

/-- A word of a block in use is in no other area. -/
theorem Inv.outside (hinv : Inv R s) (hf : f ∈ areasOf false R) (hc : InBlock f c)
    (hg : g ∈ areasOf b R) (hne : g.1 ≠ f.1) : c < g.1 ∨ g.1 + g.2 ≤ c := by
  have h₁ := hinv.not_inside hf hg
  have h₂ := hinv.not_inside hg hf
  unfold InBlock at hc
  omega

theorem Inv.free_ne_used (hinv : Inv R s) (hf : f ∈ areasOf false R) (hg : g ∈ areasOf true R) :
    g.1 ≠ f.1 := fun he => by
  obtain ⟨a, z⟩ := f
  obtain ⟨a', z'⟩ := g
  obtain rfl : a' = a := he
  exact hinv.free_not_used hg hf

theorem Inv.off (hinv : Inv R s) (hf : f ∈ areasOf false R) (hc : InBlock f c) :
    Off (areasOf true R) c := by
  intro a ha
  obtain ⟨g, hg, rfl⟩ := List.mem_map.1 ha
  have hout := hinv.outside hf hc hg (hinv.free_ne_used hf hg)
  have h32 := (hinv.size_lt hg).2.1 rfl
  omega

/-- A word of a block in use is in no header. -/
theorem Inv.ne_header (hinv : Inv R s) (hf : f ∈ areasOf false R) (hc : InBlock f c) {n : Node}
    (hn : n ∈ nodesOf R) : c ≠ n.addr ∧ c ≠ n.addr + 8 := by
  obtain ⟨m, hm, hma, hms, -⟩ := hinv.node_of_area hf
  have hroom := hinv.core.room n hn
  unfold InBlock at hc
  rcases hinv.core.eq_or_apart hm hn with rfl | h | h <;> omega

/-- A word of a block in use is in no fresh range of pages. -/
theorem Inv.outside_fresh (hinv : Inv R s) (hf : f ∈ areasOf false R) (hc : InBlock f c) {p n : ℕ}
    (hfresh : s.Fresh p n) : c + 8 ≤ p ∨ p + n ≤ c := by
  obtain ⟨m, hm, hma, hms, -⟩ := hinv.node_of_area hf
  have := hinv.far hfresh hm
  unfold InBlock at hc
  omega

end Places

section Alloc

variable {R : List Region} {s s' : Heap} {f : ℕ × ℕ} {c : ℕ}

/-- `cmpct_alloc` leaves the blocks in use alone when it takes an area from a list. -/
theorem allocFrom_mem (hinv : Inv R s) (hf : f ∈ areasOf false R) (hc : InBlock f c)
    {size start b p : ℕ} (hsize : 0 < size) (hsize' : size + 16 ≤ 2 ^ 22)
    (hstart : bucketOf (sizeToIndexAllocating size).1 = some start) (hle : start ≤ b)
    (hbit : freeListBit s.freeListBits b = true)
    (hs : allocFrom size ((sizeToIndexAllocating size).2 + 16) b s = some (p, s')) :
    s'.mem c = s.mem c := by
  obtain ⟨z, hz, -, hrz⟩ := hinv.head_of_bucket hsize hsize' hstart hle hbit
  generalize (sizeToIndexAllocating size).2 + 16 = r at *
  obtain ⟨-, -, -, -, htop⟩ := hinv.size_lt hz
  simp only at htop
  obtain ⟨n, hn, hna, -, hnz, -⟩ := hinv.node_of_area hz
  obtain ⟨m, hm, hma⟩ := exists_header_behind hz
  have hmem : s.mem (s.freeLists b + 8) = z := by
    rw [show s.freeLists b = n.addr from hna.symm, (hinv.core.header n hn).2, hnz]
  have hin : s.freeLists b ∈ (areasOf true R).map Prod.fst := List.mem_map.2 ⟨_, hz, rfl⟩
  have hlinks := hinv.core.linksIn
  have hoff := hinv.off hf hc
  have hout := hinv.outside hf hc hz (hinv.free_ne_used hf hz)
  have hright := (hinv.ne_header hf hc hm).1
  simp only at hout hma
  simp only [allocFrom, hmem, rightHeader, Option.bind_eq_bind] at hs
  have h32 := (hinv.size_lt hz).2.1 rfl
  simp only at h32
  rw [sub64_of_le (by omega) hrz] at hs
  split_ifs at hs with hcut
  · simp only [Option.bind_eq_some_iff, Option.some.injEq, Prod.mk.injEq] at hs
    obtain ⟨s₁, hs₁, s₂, hs₂, s₃, rfl, rfl, rfl⟩ := hs
    have hm₁ := hlinks.unlink_mem hin hs₁ hoff
    have hm₂ := (hlinks.unlink hin hs₁).createFreeArea_mem (by simp) hs₂ hoff (by omega)
    rw [Heap.unlock_mem, createAllocationHeader_mem (by omega) (by omega), Heap.store_of_ne (by omega),
      fixLeftPointer, Heap.store_of_ne (by omega), hm₂, hm₁]
  · simp only [Option.bind_eq_some_iff, Option.some.injEq, Prod.mk.injEq] at hs
    obtain ⟨s₁, hs₁, rfl, rfl⟩ := hs
    rw [Heap.unlock_mem, createAllocationHeader_mem (by omega) (by omega), hlinks.unlink_mem hin hs₁ hoff]

/-- `heap_grow` writes in the pages it gets and a link. -/
theorem heapGrow_mem (hinv : Inv R s) (hf : f ∈ areasOf false R) (hc : InBlock f c) {size ptr : ℕ}
    {bucket : Option ℕ} (hb : ∀ o ∈ bucket, o = 0)
    (hs : heapGrow size bucket s = some (ptr, s')) : s'.mem c = s.mem c := by
  have hmod := growSize_mod size
  simp only [heapGrow] at hs
  generalize growSize size = n at *
  have hn : n / 4096 * 4096 = n := by omega
  rcases pageAlloc_cases (n / 4096) s with ⟨as, ha⟩ | ⟨p, as, hfresh, ha⟩
  · rw [ha] at hs
    simp only [if_true, Option.some.injEq, Prod.mk.injEq] at hs
    obtain ⟨-, rfl⟩ := hs
    rfl
  · rw [ha, hn] at hs
    rw [hn] at hfresh
    have hout := hinv.outside_fresh hf hc hfresh
    have hfar := fun m hm => hinv.far hfresh (m := m) hm
    obtain ⟨hn0, hp0, -, -, -⟩ := hfresh
    simp only [if_neg (Nat.ne_of_gt hp0), addToHeap, Option.bind_eq_bind, Option.bind_eq_some_iff,
      Option.some.injEq, Prod.mk.injEq] at hs
    obtain ⟨s₃, ⟨s₂, hs₂, rfl⟩, rfl, rfl⟩ := hs
    have hheaders : ∀ g ∈ areasOf true R, p + n ≤ g.1 ∨ g.1 + g.2 ≤ p := fun g hg => by
      obtain ⟨m, hm, hma, hms, -⟩ := hinv.node_of_area hg
      have := hfar m hm
      omega
    have hoffp : Off (areasOf true R) p ∧ Off (areasOf true R) (p + 8) := by
      refine ⟨fun a ha => ?_, fun a ha => ?_⟩ <;>
      · obtain ⟨g, hg, rfl⟩ := List.mem_map.1 ha
        have h₁ := hheaders g hg
        have h₂ := (hinv.size_lt hg).2.1 rfl
        omega
    have hlinks₁ : LinksIn (areasOf true R) (createAllocationHeader p 0 16 0
        { s with answers := as, held := (p, n) :: s.held, size := u64 (s.size + n) }) := by
      have h₀ : LinksIn (areasOf true R)
          { s with answers := as, held := (p, n) :: s.held, size := u64 (s.size + n) } :=
        ⟨hinv.core.linksIn.head, hinv.core.linksIn.next, hinv.core.linksIn.prev⟩
      exact (h₀.store hoffp.1 _).store hoffp.2 _
    rw [createAllocationHeader_mem (by omega) (by omega),
      hlinks₁.createFreeArea_mem hb hs₂ (hinv.off hf hc) (by omega),
      createAllocationHeader_mem (by omega) (by omega)]

theorem growLoop_mem {roundedUp : ℕ} {grown : Bool} (hc : InBlock f c) :
    ∀ {fuel growby : ℕ} {R : List Region} {s : Heap}, Inv R s → f ∈ areasOf false R →
      growLoop roundedUp fuel growby s = some (grown, s') → s'.mem c = s.mem c
  | fuel + 1, growby, R, s, hinv, hf, hs => by
      simp only [growLoop, Option.bind_eq_bind, Option.bind_eq_some_iff] at hs
      obtain ⟨⟨ptr, s₁⟩, hs₁, hs⟩ := hs
      have hm₁ := heapGrow_mem hinv hf hc (by simp) hs₁
      rcases (heapGrow_inv hinv hs₁).1 with ⟨rfl, hinv₁⟩ | ⟨hpos, -⟩
      · simp only [ne_eq, not_true_eq_false, if_false] at hs
        split_ifs at hs with hle
        · obtain ⟨-, rfl⟩ := Prod.mk.inj (Option.some.inj hs)
          exact hm₁
        · exact (growLoop_mem hc hinv₁ hf hs).trans hm₁
      · simp only [ne_eq, Nat.ne_of_gt hpos, not_false_eq_true, if_true] at hs
        obtain ⟨-, rfl⟩ := Prod.mk.inj (Option.some.inj hs)
        exact hm₁

theorem largeAlloc_mem (hinv : Inv R s) (hf : f ∈ areasOf false R) (hc : InBlock f c) {size p : ℕ}
    (hs : largeAlloc size s = some (p, s')) : s'.mem c = s.mem c := by
  simp only [largeAlloc, Option.bind_eq_bind, Option.bind_eq_some_iff] at hs
  obtain ⟨s₀, hs₀, ⟨ptr, s₁⟩, hs₁, hs⟩ := hs
  obtain rfl := Heap.lock_eq_some hs₀
  have hinv₀ := hinv.lock true s.answers
  have hb : ∀ o ∈ (some 0 : Option ℕ), o = 0 := by simp
  have hm₁ := heapGrow_mem hinv₀ hf hc hb hs₁
  rcases heapGrow_own hinv₀ rfl hs₁ with ⟨rfl, as, rfl⟩ | ⟨hfresh, -⟩
  · simp only [if_true, Option.some.injEq, Prod.mk.injEq] at hs
    obtain ⟨-, rfl⟩ := hs
    exact hm₁
  · have hout := hinv₀.outside_fresh hf hc hfresh
    have hmod := growSize_mod (roundup size 8)
    obtain ⟨hn0, hp0, -, -, -⟩ := hfresh
    simp only [if_neg (Nat.ne_of_gt hp0), Option.some.injEq, Prod.mk.injEq] at hs
    obtain ⟨-, rfl⟩ := hs
    exact (createAllocationHeader_mem (by omega) (by omega)).trans hm₁

/-- **`cmpct_alloc` leaves the blocks in use alone.** -/
theorem cmpctAlloc_mem {cfg : Config} (hinv : Inv R s) (hf : f ∈ areasOf false R)
    (hc : InBlock f c) {size p : ℕ} (hsize : size < 2 ^ 64)
    (hs : cmpctAlloc cfg size s = some (p, s')) : s'.mem c = s.mem c := by
  unfold cmpctAlloc at hs
  split_ifs at hs with h0 hlarge
  · obtain ⟨-, rfl⟩ := Prod.mk.inj (Option.some.inj hs)
    rfl
  · exact largeAlloc_mem hinv hf hc hs
  · simp only [Option.bind_eq_bind, Option.bind_eq_some_iff] at hs
    obtain ⟨s₀, hs₀, start, hstart, hs⟩ := hs
    obtain ⟨hsmall, hstart'⟩ := small_of_bucketOf hsize hlarge hstart
    obtain ⟨-, -, -, hrtop⟩ := rounded_spec (Nat.pos_of_ne_zero h0) (by omega)
    rw [u64_of_lt (by omega)] at hs
    obtain rfl := Heap.lock_eq_some hs₀
    have hinv₀ := hinv.lock true s.answers
    split at hs
    · rename_i bucket hbucket
      obtain ⟨hle, hbit⟩ := findNonemptyBucket_spec hstart' hbucket
      have hm := allocFrom_mem hinv₀ hf hc (Nat.pos_of_ne_zero h0) hsmall hstart hle hbit hs
      exact hm
    · simp only [Option.bind_eq_some_iff] at hs
      obtain ⟨⟨grown, s₁⟩, hs₁, hs⟩ := hs
      obtain ⟨R₁, hinv₁, -, hused⟩ := growLoop_inv hinv₀ hs₁
      have hm₁ := growLoop_mem hc hinv₀ hf hs₁
      split_ifs at hs with hgrown
      · simp only [Option.bind_eq_some_iff] at hs
        obtain ⟨bucket, hbucket, hs⟩ := hs
        obtain ⟨hle, hbit⟩ := findNonemptyBucket_spec hstart' hbucket
        exact (allocFrom_mem hinv₁ (hused ▸ hf) hc (Nat.pos_of_ne_zero h0) hsmall hstart hle hbit
          hs).trans hm₁
      · obtain ⟨-, rfl⟩ := Prod.mk.inj (Option.some.inj hs)
        exact hm₁

end Alloc

section Free

variable {R : List Region} {s s₁ s' : Heap} {f : ℕ × ℕ} {a z c : ℕ}

theorem Inv.left_ne_zero (hinv : Inv R s) (hb : (a, z) ∈ areasOf false R) : s.mem a ≠ 0 := by
  obtain ⟨h, rfl, rfl⟩ := Hole.exists_of_mem_areasOf hb
  have hleft : s.mem h.addr = h.left := (hinv.core_one.header _ List.mem_cons_self).1
  have hpos := hinv.placed.left_pos
  omega

/-- The area before a block, when its header is tagged. -/
theorem Inv.left_free (hinv : Inv R s) (hb : (a, z) ∈ areasOf false R)
    (htag : isTaggedAsFree (s.mem a) s = true) : ∃ y, (s.mem a, y) ∈ areasOf true R := by
  obtain ⟨h, rfl, rfl⟩ := Hole.exists_of_mem_areasOf hb
  have hc : Core (⟨h.addr, z, h.left, z⟩ :: follow h.addr (h.addr + z) h.post ::
      h.others (h.addr + z)) (h.otherAreas true (h.addr + z)) s := by
    simpa [picks, Area.node] using hinv.core_one
  have hleft : s.mem h.addr = h.left := (hc.header _ List.mem_cons_self).1
  rw [hleft] at htag ⊢
  simp only [isTaggedAsFree, decide_eq_true_eq] at htag
  rcases hinv.left_header (N := [_, _]) hc with ⟨-, -, hzero, -⟩ | ⟨pre, y, l, hcons, hm, -, hl2⟩
  · omega
  · have hfree : y.free = true := by
      by_contra hy
      simp only [Bool.not_eq_true] at hy
      rw [hm, hy] at htag
      simp at htag
      omega
    refine ⟨y.size, Hole.mem_fill.2 (.inr ?_)⟩
    have hat : h.left = h.base + h.sentinel + total pre := by
      rw [Hole.left, hcons, lastHeader_append]
    simp [Hole.otherAreas, hcons, picks_append, picks, hfree, hat]

/-- The area behind a block, when its header is tagged. -/
theorem Inv.right_free (hinv : Inv R s) (hb : (a, z) ∈ areasOf false R)
    (htag : isTaggedAsFree (a + z) s = true) : ∃ x, (a + z, x) ∈ areasOf true R := by
  obtain ⟨h, rfl, rfl⟩ := Hole.exists_of_mem_areasOf hb
  have ha8 := hinv.placed.addr_mod
  have hc : Core (⟨h.addr, z, h.left, z⟩ :: follow h.addr (h.addr + z) h.post ::
      h.others (h.addr + z)) (h.otherAreas true (h.addr + z)) s := by
    simpa [picks, Area.node] using hinv.core_one
  simp only [isTaggedAsFree, decide_eq_true_eq] at htag
  rcases hinv.right_header (A := [_]) (by omega) hc with ⟨-, -, hzero⟩ | ⟨y, post, hcons, -, -, hm⟩
  · omega
  · have hfree : y.free = true := by
      by_contra hy
      simp only [Bool.not_eq_true] at hy
      rw [hm, hy] at htag
      simp at htag
    refine ⟨y.size, Hole.mem_fill.2 (.inr ?_)⟩
    simp [Hole.otherAreas, hcons, picks, hfree]

/-- `free_memory` writes in the area that it makes, and a link. -/
theorem LinksIn.freeMemory_mem {F : List (ℕ × ℕ)} (h : LinksIn F s) {address left size : ℕ}
    (hs : freeMemory address left size s = some s') (hc : Off F c)
    (hout : c < address ∨ address + 32 ≤ c) : s'.mem c = s.mem c := by
  simp only [freeMemory] at hs
  split_ifs at hs
  · cases hs
    rfl
  · exact h.createFreeArea_mem (by simp) hs hc hout

/-- **`cmpct_free` leaves the other blocks in use alone.** -/
theorem freeLocked_mem (hinv : Inv R s) (hf : f ∈ areasOf false R) (hc : InBlock f c)
    (hb : (a, z) ∈ areasOf false R) (hne : a ≠ f.1) (hroom : RoomToFree (a + 16) s)
    (hs : freeLocked a s = some s') : s'.mem c = s.mem c := by
  obtain ⟨n, hn, rfl, -, hnz, -⟩ := hinv.node_of_area hb
  simp only at hnz hne
  have hsize : s.mem (n.addr + 8) = z := (hinv.core.header n hn).2.trans hnz
  have hlinks := hinv.core.linksIn
  have hoff := hinv.off hf hc
  have hout : c < n.addr ∨ n.addr + z ≤ c := hinv.outside hf hc hb hne
  have hz24 : 24 ≤ z := (hinv.size_lt hb).1
  obtain ⟨m, hm, hma⟩ := exists_header_behind hb
  simp only at hma
  -- a free area next to the block: its size, the header behind it, and the word outside it
  have hfree : ∀ {g x : ℕ}, (g, x) ∈ areasOf true R → s.mem (g + 8) = x ∧ Off (areasOf true R) (g + 8) ∧
      (c < g ∨ g + x ≤ c) ∧ 32 ≤ x ∧ g ∈ (areasOf true R).map Prod.fst ∧
      ∃ k ∈ nodesOf R, k.addr = g + x := fun {g x} hg => by
    obtain ⟨k, hk, rfl, -, hkx, -⟩ := hinv.node_of_area hg
    exact ⟨(hinv.core.header k hk).2.trans hkx, (hinv.core.off_header hk).2,
      hinv.outside hf hc hg (hinv.free_ne_used hf hg), (hinv.size_lt hg).2.1 rfl,
      List.mem_map.2 ⟨_, hg, rfl⟩, exists_header_behind hg⟩
  have hoffn := (hinv.core.off_header hn).2
  have hoffm := (hinv.core.off_header hm).1
  have hcm := (hinv.ne_header hf hc hm).1
  rw [hma] at hoffm hcm
  simp only [freeLocked, hsize] at hs
  split_ifs at hs with hl hr
  · obtain ⟨y, hy⟩ := hinv.left_free hb hl.2
    obtain ⟨-, -, houty, hy32, hyF, -⟩ := hfree hy
    simp only [Option.bind_eq_bind, Option.bind_eq_some_iff] at hs
    obtain ⟨s₁, hs₁, hs⟩ := hs
    obtain ⟨hlinks₁, hm₁⟩ := hlinks.unlinkUnknown hyF hs₁
    rw [rightHeader, hm₁ _ hoffn, hsize] at hs
    split_ifs at hs with hr
    · have hr' : isTaggedAsFree (n.addr + z) s = true := by
        simp only [isTaggedAsFree, hm₁ _ hoffm] at hr ⊢
        exact hr
      obtain ⟨x, hx⟩ := hinv.right_free hb hr'
      obtain ⟨hxs, hoffx, houtx, hx32, hxF, k, hk, hka⟩ := hfree hx
      simp only [Option.bind_eq_some_iff] at hs
      obtain ⟨s₂, hs₂, hs⟩ := hs
      obtain ⟨hlinks₂, hm₂⟩ := hlinks₁.unlinkUnknown hxF hs₂
      rw [rightHeader, hm₂ _ hoffx, hm₁ _ hoffx, hxs, ← hka] at hs
      have hck := (hinv.ne_header hf hc hk).1
      rw [(hlinks₂.store (hinv.core.off_header hk).1 _).freeMemory_mem hs hoff (by omega),
        Heap.store_of_ne hck, hm₂ _ hoff, hm₁ _ hoff]
    · rw [(hlinks₁.store hoffm _).freeMemory_mem hs hoff (by omega), Heap.store_of_ne hcm,
        hm₁ _ hoff]
  · rw [rightHeader, hsize] at hr hs
    obtain ⟨x, hx⟩ := hinv.right_free hb hr
    obtain ⟨hxs, -, houtx, hx32, hxF, k, hk, hka⟩ := hfree hx
    simp only [Option.bind_eq_bind, Option.bind_eq_some_iff] at hs
    obtain ⟨s₁, hs₁, hs⟩ := hs
    obtain ⟨hlinks₁, hm₁⟩ := hlinks.unlinkUnknown hxF hs₁
    rw [rightHeader, hxs, ← hka] at hs
    have hck := (hinv.ne_header hf hc hk).1
    rw [(hlinks₁.store (hinv.core.off_header hk).1 _).freeMemory_mem hs hoff (by omega),
      Heap.store_of_ne hck, hm₁ _ hoff]
  · have hz32 : 32 ≤ z := by
      rcases hroom with h | h | h
      · rwa [Nat.add_sub_cancel, hsize] at h
      · rw [Nat.add_sub_cancel] at h
        exact absurd ⟨hinv.left_ne_zero hb, h⟩ hl
      · rw [Nat.add_sub_cancel] at h
        exact absurd h hr
    exact hlinks.freeMemory_mem hs hoff (by omega)

theorem cmpctFree_mem (hinv : Inv R s) (hf : f ∈ areasOf false R) (hc : InBlock f c)
    (hb : (a, z) ∈ areasOf false R) (hne : a ≠ f.1) (hroom : RoomToFree (a + 16) s)
    (hs : cmpctFree (a + 16) s = some s') : s'.mem c = s.mem c := by
  obtain ⟨s₁, hs₁, rfl⟩ := cmpctFree_eq_some hs
  have hm := freeLocked_mem (hinv.lock true s.answers) hf hc hb hne hroom hs₁
  exact hm

end Free

section Realloc

variable {R : List Region} {s s' : Heap}

/-- The byte at `a`; the words of memory are little-endian. -/
def Heap.byte (s : Heap) (a : ℕ) : ℕ := s.mem (a / 8 * 8) / 256 ^ (a % 8) % 256

/-- A word of which the low `k` bytes come from another. -/
theorem byte_of_merge {v w k j : ℕ} (hj : j < k) :
    (v % 256 ^ k + w / 256 ^ k * 256 ^ k) / 256 ^ j % 256 = v / 256 ^ j % 256 := by
  obtain ⟨d, rfl⟩ : ∃ d, k = j + 1 + d := ⟨k - (j + 1), by omega⟩
  have hpow : 256 ^ (j + 1 + d) = 256 ^ j * (256 * 256 ^ d) := by ring
  have hpos : 0 < 256 ^ j := Nat.pow_pos (by norm_num)
  rw [hpow, show w / (256 ^ j * (256 * 256 ^ d)) * (256 ^ j * (256 * 256 ^ d)) =
    256 ^ j * (w / (256 ^ j * (256 * 256 ^ d)) * (256 * 256 ^ d)) by ring,
    Nat.add_mul_div_left _ _ hpos, Nat.mod_mul_right_div_self,
    show w / (256 ^ j * (256 * 256 ^ d)) * (256 * 256 ^ d) =
      256 * (w / (256 ^ j * (256 * 256 ^ d)) * 256 ^ d) by ring,
    Nat.add_mul_mod_self_left, Nat.mod_mul_right_mod]

/-- **`memcpy` copies bytes.** -/
theorem memcpy_byte {dst src n i : ℕ} (hd : dst % 8 = 0) (hs : src % 8 = 0) (hi : i < n) :
    (memcpy dst src n s).byte (dst + i) = s.byte (src + i) := by
  have hda : (dst + i) / 8 * 8 = dst + i / 8 * 8 := by omega
  have hsa : (src + i) / 8 * 8 = src + i / 8 * 8 := by omega
  have hdm : (dst + i) % 8 = i % 8 := by omega
  have hsm : (src + i) % 8 = i % 8 := by omega
  rw [Heap.byte, Heap.byte, hda, hsa, hdm, hsm]
  simp only [memcpy]
  rw [if_pos (by omega), show dst + i / 8 * 8 - dst = i / 8 * 8 by omega, byte_of_merge]
  omega

/-- **`cmpct_realloc` keeps the bytes** that the old block and the new one both have. -/
theorem cmpctRealloc_byte {cfg : Config} (hinv : Inv R s) {a z size p : ℕ} (hsize : size < 2 ^ 64)
    (hb : (a, z) ∈ areasOf false R) (hroom : RoomToCopy (a + 16) size s)
    (hs : cmpctRealloc cfg (a + 16) size s = some (p, s')) (hp : p ≠ 0) {i : ℕ} (hi : i < size)
    (hiz : i + 16 < z) : s'.byte (p + i) = s.byte (a + 16 + i) := by
  have hz32 := hroom.size_le (hinv.mem_size hb)
  obtain ⟨-, -, hz8, ha8, -⟩ := hinv.size_lt hb
  simp only at hz8 ha8
  rcases cmpctRealloc_cases hinv hsize hb hroom hs with
    ⟨rfl, -⟩ | ⟨R₁, s₁, a', z', rfl, hs₁, hh, hz', hinv₂, hs₂⟩
  · exact absurd rfl hp
  · obtain ⟨-, -, hz8', ha8', -⟩ := hh.inv.size_lt hh.block
    simp only at hz8' ha8'
    have hfits := hroom.fits (hinv.mem_size hb) hz' hsize
    have hne : a ≠ a' := fun e => hh.new z (e ▸ hb)
    have hcopy : (memcpy (a' + 16) (a + 16) (min size (z - 16)) s₁).byte (a' + 16 + i) =
        s₁.byte (a + 16 + i) := memcpy_byte (by omega) (by omega) (by omega)
    -- the new block is not touched when the old one is freed, nor the old one before
    have hnew : s'.byte (a' + 16 + i) =
        (memcpy (a' + 16) (a + 16) (min size (z - 16)) s₁).byte (a' + 16 + i) := by
      rw [Heap.byte, Heap.byte, cmpctFree_mem hinv₂ hh.block ⟨by simp only; omega, by simp only; omega⟩
        (hh.keeps _ hb) hne ?_ hs₂]
      exact .inl (by rw [Nat.add_sub_cancel, hinv₂.mem_size (hh.keeps _ hb)]; exact hz32)
    have hold : s₁.byte (a + 16 + i) = s.byte (a + 16 + i) := by
      rw [Heap.byte, Heap.byte,
        cmpctAlloc_mem hinv hb ⟨by simp only; omega, by simp only; omega⟩ hsize hs₁]
    rw [hnew, hcopy, hold]

end Realloc

end Cmpct
end LittleKernel
