/-
# The calls keep the invariant

`cmpct_alloc`, `cmpct_free`, `cmpct_memalign` and `cmpct_realloc`.  Each is a
sequence of primitives at one hole of the layout, and each proof follows the
source: it takes the `Core` of the hole through the primitives in their order and
ends with the areas that the call leaves there.

`Handed` is what an allocation promises: the invariant, a block that was in use by
nobody, and every other block where it was.
-/

import LittleKernel.Cmpctmalloc.Layout

namespace LittleKernel
namespace Cmpct

open Word

section Headers

variable {A B : List Node} {F : List (ℕ × ℕ)} {s : Heap}

/-- **`FixLeftPointer`** on the header behind a stretch of areas. -/
theorem Core.fixLeft {l l' a : ℕ} {xs : List Area} (h : Core (A ++ follow l a xs :: B) F s)
    (hl : l % 2 = 0) (hl' : l' % 2 = 0) :
    Core (A ++ follow l' a xs :: B) F (fixLeftPointer a l' s) := by
  have ha := follow_addr l a xs
  have hleft := (h.header (follow l a xs) (by simp)).1
  have hset := h.setLeft (l' + (follow l a xs).left % 2)
  rw [follow_left _ _ _ hl, ha] at hset
  rw [ha] at hleft
  rw [fixLeftPointer, hleft, show untag l' = l' by unfold untag; omega]
  exact hset

theorem tagAsFree_of_even {l : ℕ} (h : l % 2 = 0) : tagAsFree l = l + 1 := by
  unfold tagAsFree
  omega

theorem untag_of_even {l : ℕ} (h : l % 2 = 0) : untag l = l := by
  unfold untag
  omega

theorem untag_succ {l : ℕ} (h : l % 2 = 0) : untag (l + 1) = l := by
  unfold untag
  omega

end Headers

theorem Heap.lock_eq_some {s s' : Heap} (h : s.lock = some s') : s' = { s with locked := true } := by
  unfold Heap.lock at h
  split_ifs at h
  exact (Option.some.inj h).symm

/-- A block is freed between `lock` and `unlock`. -/
theorem cmpctFree_eq_some {a : ℕ} {s s' : Heap} (hs : cmpctFree (a + 16) s = some s') :
    ∃ s₁, freeLocked a { s with locked := true } = some s₁ ∧ s' = s₁.unlock := by
  simp only [cmpctFree, if_neg (show a + 16 ≠ 0 by omega), Option.bind_eq_bind,
    Option.bind_eq_some_iff, Nat.add_sub_cancel] at hs
  obtain ⟨s₀, hs₀, s₁, hs₁, hs⟩ := hs
  obtain rfl := Heap.lock_eq_some hs₀
  exact ⟨s₁, hs₁, (Option.some.inj hs).symm⟩

section Take

variable {h : Hole} {s s₁ s₂ : Heap} {z b : ℕ}

/-- The headers of a hole with one area in it. -/
theorem Inv.core_one {x : Area} (hinv : Inv (h.fill [x]) s) :
    Core (x.node h.left h.addr :: follow h.addr (h.addr + x.size) h.post ::
      h.others (h.addr + x.size))
      (picks true h.addr [x] ++ h.otherAreas true (h.addr + x.size)) s := by
  simpa [front, lastHeader] using hinv.core_fill

/-- A free area is taken as a whole. -/
theorem Inv.takeWhole (hinv : Inv (h.fill [⟨z, true⟩]) s) (hb : areaBucket z = some b)
    (hs : unlinkFree h.addr b s = some s₁) :
    Inv (h.fill [⟨z, false⟩])
        (createAllocationHeader h.addr 0 (s₁.mem (h.addr + 8)) (s₁.mem h.addr) s₁) ∧
      s₁.outer = s.outer := by
  have hp := hinv.placed
  have hok := hp.areas ⟨z, true⟩ (by simp)
  have h₀ : Core (⟨h.addr, z, h.left + 1, z⟩ :: follow h.addr (h.addr + z) h.post ::
      h.others (h.addr + z)) ((h.addr, z) :: h.otherAreas true (h.addr + z)) s := hinv.core_one
  obtain ⟨h₁, ho⟩ := h₀.unlink List.mem_cons_self rfl rfl hb hs
  refine ⟨?_, ho⟩
  obtain ⟨hleft, hsize⟩ := h₁.header _ List.mem_cons_self
  have h₂ := h₁.allocationHeader (A := []) (Nat.add_zero _) (s₁.mem (h.addr + 8)) (s₁.mem h.addr)
  simp only [hleft, hsize, untag_succ (show h.left % 2 = 0 by have := hp.left_mod; omega)] at h₂
  refine hinv.refill (by simp) ?_ (hinv.region_ok.alternating.refill (by simp [Alternating])
    (by simp) (by simp) (by simp)) ?_ ho (by simp [picks])
  · simpa [Area.Ok] using ⟨hok.1, hok.2.1⟩
  · simpa [front, lastHeader, picks, Area.node, hleft, hsize] using h₂

/-- The front of a free area is taken and the rest stays free. -/
theorem Inv.takeFront (hinv : Inv (h.fill [⟨z, true⟩]) s) (hb : areaBucket z = some b) {r : ℕ}
    (hr : 32 ≤ r) (hr8 : r % 8 = 0) (hrz : r + 32 ≤ z) (hs₁ : unlinkFree h.addr b s = some s₁)
    (hs₂ : createFreeArea (h.addr + r) h.addr (z - r) none s₁ = some s₂) {s₃ : Heap}
    (hs₃ : s₃ = (fixLeftPointer (h.addr + z) (h.addr + r) s₂).store (h.addr + 8)
      (sub64 ((fixLeftPointer (h.addr + z) (h.addr + r) s₂).mem (h.addr + 8)) (z - r))) :
    Inv (h.fill [⟨r, false⟩, ⟨z - r, true⟩])
        (createAllocationHeader h.addr 0 (s₃.mem (h.addr + 8)) (s₃.mem h.addr) s₃) ∧
      s₃.outer = s.outer := by
  have hp := hinv.placed
  have hz8 : z % 8 = 0 := (hp.areas ⟨z, true⟩ (by simp)).1
  have hl8 := hp.left_mod
  have ha8 := hp.addr_mod
  have htop : h.addr + z + 16 < 2 ^ 64 := by simpa using hp.top
  have h₀ : Core (⟨h.addr, z, h.left + 1, z⟩ :: follow h.addr (h.addr + z) h.post ::
      h.others (h.addr + z)) ((h.addr, z) :: h.otherAreas true (h.addr + z)) s := hinv.core_one
  obtain ⟨h₁, ho₁⟩ := h₀.unlink List.mem_cons_self rfl rfl hb hs₁
  have h₂ := h₁.split (A := []) (k := r) (List.nodup_cons.1 h₀.nodup).1 (by omega)
    (by simp only; omega)
  -- the header of the area still holds the old size while the rest is put on its list
  obtain ⟨h₃, ho₂⟩ := h₂.push (A := [⟨h.addr, r, h.left + 1, z⟩])
    (n := ⟨h.addr + r, z - r, s₁.mem (h.addr + r), s₁.mem (h.addr + r + 8)⟩)
    (by simp only; omega) le_rfl
    (h₁.not_mem_of_inside List.mem_cons_self (by simp only; omega) (by simp only; omega)) hs₂
  rw [tagAsFree_of_even (by omega)] at h₃
  have h₄ := h₃.fixLeft (A := [⟨h.addr, r, h.left + 1, z⟩, ⟨h.addr + r, z - r, h.addr + 1, z - r⟩])
    (l := h.addr) (by omega) (show (h.addr + r) % 2 = 0 by omega)
  obtain ⟨hleft, hsize⟩ := h₄.header ⟨h.addr, r, h.left + 1, z⟩ (by simp)
  simp only at hsize
  rw [hsize, sub64_of_le (by omega) (by omega), show z - (z - r) = r by omega] at hs₃
  have h₅ := h₄.setSize (A := []) r
  rw [← hs₃] at h₅
  obtain ⟨hleft', hsize'⟩ := h₅.header ⟨h.addr, r, h.left + 1, r⟩ (by simp)
  have h₆ := h₅.allocationHeader (A := []) (Nat.add_zero _) (s₃.mem (h.addr + 8)) (s₃.mem h.addr)
  simp only at hleft' hsize'
  have ho : s₃.outer = s.outer := by rw [hs₃]; exact ho₂.trans ho₁
  refine ⟨?_, ho⟩
  rw [hleft', hsize'] at h₆ ⊢
  rw [untag_succ (by omega)] at h₆
  have hz : r + (z - r) = z := by omega
  refine hinv.refill (by simp [hz]) ?_ (hinv.region_ok.alternating.refill (by simp [Alternating])
    (by simp) (by simp) ?_) ?_ ho (by simp [picks])
  · simp only [List.mem_cons, List.not_mem_nil, or_false, forall_eq_or_imp, forall_eq, Area.Ok]
    exact ⟨⟨hr8, by omega, by simp⟩, by omega, by omega, fun _ => by omega⟩
  · intro x hx hxf
    exact hinv.region_ok.alternating.behind rfl
  · simpa [front, lastHeader, picks, Area.node, Nat.add_assoc, hz] using h₆

end Take

section Alloc

/-- A block `(a, z)` of the layout `R'` has been handed out: it was not in use in `R`,
and what was in use still is. -/
structure Handed (R : List Region) (s : Heap) (R' : List Region) (s' : Heap) (a z : ℕ) : Prop where
  inv : Inv R' s'
  live : s'.live = s.live
  block : (a, z) ∈ areasOf false R'
  new : ∀ z', (a, z') ∉ areasOf false R
  keeps : ∀ f ∈ areasOf false R, f ∈ areasOf false R'

variable {R : List Region} {s s' : Heap}

theorem Inv.size_lt (hinv : Inv R s) {b : Bool} {f : ℕ × ℕ} (hf : f ∈ areasOf b R) :
    24 ≤ f.2 ∧ (b = true → 32 ≤ f.2) ∧ f.2 % 8 = 0 ∧ f.1 % 8 = 0 ∧ f.1 + f.2 + 16 < 2 ^ 64 := by
  obtain ⟨h, rfl, ha⟩ := Hole.exists_of_mem_areasOf hf
  have hp := hinv.placed
  obtain ⟨h8, h24, h32⟩ := hp.areas ⟨f.2, b⟩ (by simp)
  have htop := hp.top
  have hmod := hp.addr_mod
  simp only [total_cons, total_nil] at htop
  exact ⟨h24, h32, h8, by omega, by omega⟩

/-- **The head of a list that is found is large enough.** -/
theorem Inv.head_of_bucket (hinv : Inv R s) {size start b : ℕ} (hsize : 0 < size)
    (hsize' : size + 16 ≤ 2 ^ 22) (hstart : bucketOf (sizeToIndexAllocating size).1 = some start)
    (hle : start ≤ b) (hbit : freeListBit s.freeListBits b = true) :
    ∃ z, (s.freeLists b, z) ∈ areasOf true R ∧ areaBucket z = some b ∧
      (sizeToIndexAllocating size).2 + 16 ≤ z := by
  obtain ⟨L, hL⟩ := hinv.core.lists
  rw [hL.bit, Bool.not_eq_true', List.isEmpty_eq_false_iff] at hbit
  obtain ⟨x, xs, hxs⟩ := List.exists_cons_of_ne_nil hbit
  obtain ⟨z, hz, hzb⟩ := (hL.mem_iff b x).1 (by simp [hxs])
  have hhead : s.freeLists b = x := by rw [hL.head, hxs]; rfl
  obtain ⟨-, h32, -, -, htop⟩ := hinv.size_lt hz
  have h32 := h32 rfl
  refine ⟨z, hhead ▸ hz, hzb, ?_⟩
  have hsub : sub64 z 16 = z - 16 := sub64_of_le (by simp only at htop; omega) (by simp only at h32; omega)
  simp only at htop h32
  have hindex : (sizeToIndexAllocating size).1 ≤ sizeToIndexFreeing (z - 16) := by
    rw [areaBucket, hsub, bucketOf] at hzb
    rw [bucketOf] at hstart
    split_ifs at hzb hstart with h₁ h₂
    have := Option.some.inj hzb
    have := Option.some.inj hstart
    omega
  have := rounded_le_of_index_le hsize (by omega) (by omega) (by omega) hindex
  omega

/-- The free area found is cut to size, or handed out whole if the rest has no room for a header. -/
theorem allocFrom_handed (hinv : Inv R s) {size start b p : ℕ} (hsize : 0 < size)
    (hsize' : size + 16 ≤ 2 ^ 22) (hstart : bucketOf (sizeToIndexAllocating size).1 = some start)
    (hle : start ≤ b) (hbit : freeListBit s.freeListBits b = true)
    (hs : allocFrom size ((sizeToIndexAllocating size).2 + 16) b s = some (p, s')) :
    ∃ R' a z, p = a + 16 ∧ Handed R s R' s' a z ∧ (sizeToIndexAllocating size).2 + 16 ≤ z := by
  obtain ⟨z, hz, hzb, hrz⟩ := hinv.head_of_bucket hsize hsize' hstart hle hbit
  obtain ⟨h8, h16, -⟩ := rounded_spec hsize (by omega)
  obtain ⟨r, hr⟩ : ∃ r, (sizeToIndexAllocating size).2 + 16 = r := ⟨_, rfl⟩
  rw [hr] at hs hrz ⊢
  obtain ⟨-, -, -, -, htop⟩ := hinv.size_lt hz
  simp only at htop
  have hnew : ∀ z', (s.freeLists b, z') ∉ areasOf false R := fun z' => hinv.free_not_used hz
  obtain ⟨h, rfl, ha⟩ := Hole.exists_of_mem_areasOf hz
  simp only at ha hinv
  have hmem : s.mem (h.addr + 8) = z := (hinv.core_one.header _ List.mem_cons_self).2
  simp only [allocFrom, ← ha, hmem, rightHeader, Option.bind_eq_bind] at hs
  rw [sub64_of_le (by omega) hrz] at hs
  split_ifs at hs with hc
  · simp only [Option.bind_eq_some_iff, Option.some.injEq, Prod.mk.injEq] at hs
    obtain ⟨s₁, hs₁, s₂, hs₂, s₃, hs₃, rfl, rfl⟩ := hs
    obtain ⟨hinv', ho⟩ := hinv.takeFront hzb (by omega) (by omega) (by omega) hs₁ hs₂ hs₃.symm
    have hlive : s₃.live = s.live := Heap.live_of_outer ho
    refine ⟨_, h.addr, r, rfl, ⟨hinv'.lock false _, hlive, ?_, ?_, ?_⟩, le_rfl⟩
    · simp [Hole.mem_fill, picks]
    · exact fun z' => ha ▸ hnew z'
    · intro f hf
      have hz' : r + (z - r) = z := by omega
      simpa [Hole.mem_fill, picks, hz'] using .inr (by simpa [Hole.mem_fill, picks] using hf)
  · simp only [Option.bind_eq_some_iff, Option.some.injEq, Prod.mk.injEq] at hs
    obtain ⟨s₁, hs₁, rfl, rfl⟩ := hs
    obtain ⟨hinv', ho⟩ := hinv.takeWhole hzb hs₁
    have hlive : s₁.live = s.live := Heap.live_of_outer ho
    refine ⟨_, h.addr, z, rfl, ⟨hinv'.lock false _, hlive, ?_, ?_, ?_⟩, hrz⟩
    · simp [Hole.mem_fill, picks]
    · exact fun z' => ha ▸ hnew z'
    · intro f hf
      simpa [Hole.mem_fill, picks] using .inr (by simpa [Hole.mem_fill, picks] using hf)

end Alloc

section Grow

variable {R : List Region} {s s' : Heap}

/-- `page_alloc` refuses, or hands out a fresh range and enters it in the ledger. -/
theorem pageAlloc_cases (n : ℕ) (s : Heap) :
    (∃ as, pageAlloc n s = (0, { s with answers := as })) ∨
    ∃ p as, s.Fresh p (n * 4096) ∧
      pageAlloc n s = (p, { s with answers := as, held := (p, n * 4096) :: s.held }) := by
  unfold pageAlloc
  split
  · rename_i p as _
    split_ifs with hf
    · exact .inr ⟨p, as, hf, rfl⟩
    · exact .inl ⟨as, rfl⟩
  · rename_i as _ _
    exact .inl ⟨as, rfl⟩
  · exact .inl ⟨s.answers, rfl⟩

/-- The headers of the heap are outside a fresh range. -/
theorem Inv.far (hinv : Inv R s) {p n : ℕ} (hf : s.Fresh p n) {m : Node} (hm : m ∈ nodesOf R) :
    m.addr + m.span ≤ p ∨ p + n ≤ m.addr := by
  obtain ⟨r, hr, hm⟩ := List.mem_flatMap.1 hm
  have hb := Region.node_bounds hm
  have := hf.2.2.2.2 r.range (by rw [hinv.held]; exact List.mem_map_of_mem hr)
  simp only [Region.range] at this
  omega

/-- A fresh range of pages as three headers: two sentinels and an area. -/
theorem Inv.claimPages (hinv : Inv R s) {p n : ℕ} (hf : s.Fresh p n) (hn : n % 4096 = 0) :
    Core (⟨p, 16, s.mem p, s.mem (p + 8)⟩ ::
      ⟨p + 16, n - 32, s.mem (p + 16), s.mem (p + 16 + 8)⟩ ::
      ⟨p + n - 16, 16, s.mem (p + n - 16), s.mem (p + n - 16 + 8)⟩ :: nodesOf R)
      (areasOf true R) s := by
  have hfar := fun m hm => hinv.far hf (m := m) hm
  obtain ⟨hn0, hp0, -, htop, -⟩ := hf
  have h₁ := hinv.core.claim (A := [])
    (n := ⟨p + n - 16, 16, s.mem (p + n - 16), s.mem (p + n - 16 + 8)⟩) (by simp only; omega)
    (fun m hm => by have := hfar m hm; simp only; omega) ⟨rfl, rfl⟩
  have h₂ := h₁.claim (A := [])
    (n := ⟨p + 16, n - 32, s.mem (p + 16), s.mem (p + 16 + 8)⟩) (by simp only; omega)
    (fun m hm => by
      rcases List.mem_cons.1 hm with rfl | hm
      · simp only; omega
      · have := hfar m hm; simp only; omega) ⟨rfl, rfl⟩
  exact h₂.claim (A := []) (n := ⟨p, 16, s.mem p, s.mem (p + 8)⟩) (by simp only; omega)
    (fun m hm => by
      rcases List.mem_cons.1 hm with rfl | hm
      · simp only; omega
      · rcases List.mem_cons.1 hm with rfl | hm
        · simp only; omega
        · have := hfar m hm; simp only; omega) ⟨rfl, rfl⟩

/-- **A fresh region joins the heap.** -/
theorem Inv.addRegion (hinv : Inv R s) {p n : ℕ} {b : Bool} (hf : s.Fresh p n) (hn : n % 4096 = 0)
    (hcore : Core (nodesOf (⟨p, 16, [⟨n - 32, b⟩]⟩ :: R)) (areasOf true (⟨p, 16, [⟨n - 32, b⟩]⟩ :: R))
      s') (hheld : s'.held = (p, n) :: s.held) (hsize : s'.size = u64 (s.size + n))
    (hlive : s'.live = s.live) : Inv (⟨p, 16, [⟨n - 32, b⟩]⟩ :: R) s' := by
  obtain ⟨hn0, hp0, hp, htop, hfresh⟩ := hf
  have hlen : Region.len ⟨p, 16, [⟨n - 32, b⟩]⟩ = n := by
    simp only [Region.len, total_cons, total_nil]
    omega
  have hok : ∀ r ∈ (⟨p, 16, [⟨n - 32, b⟩]⟩ : Region) :: R, r.Ok := by
    refine List.forall_mem_cons.2 ⟨⟨hp0, hp, ?_, ?_, by simp, ?_, ?_⟩, hinv.ok⟩
    · rw [hlen]
      exact hn
    · rw [hlen]
      exact htop
    · simp only [List.mem_singleton, forall_eq, Area.Ok]
      omega
    · simp [Alternating]
  have hapart : (((⟨p, 16, [⟨n - 32, b⟩]⟩ : Region) :: R).map Region.range).Pairwise
      Ranges.Apart := by
    rw [List.map_cons, List.pairwise_cons]
    refine ⟨fun q hq => ?_, hinv.apart⟩
    rw [← hinv.held] at hq
    simpa [Region.range, hlen, Ranges.Apart] using hfresh q hq
  have hsum := sum_len_lt hok hapart
  rw [List.map_cons, List.sum_cons, hlen] at hsum
  refine ⟨hok, hapart, hcore, ?_, ?_, ?_⟩
  · rw [hheld, hinv.held, List.map_cons, Region.range, hlen]
  · rw [hsize, hinv.size, u64_of_lt (by omega), List.map_cons, List.sum_cons, hlen, Nat.add_comm]
  · rw [hlive]
    refine ⟨hinv.live.1, fun q hq => ?_⟩
    obtain ⟨f, hf, rfl⟩ := hinv.live.2 q hq
    exact ⟨f, by rw [areasOf, List.flatMap_cons]; exact List.mem_append_right _ hf, rfl⟩

theorem growSize_mod (size : ℕ) : growSize size % 4096 = 0 := by
  unfold growSize roundup
  omega

/-- No free area of the heap starts in a fresh range. -/
theorem Inv.not_mem_fresh (hinv : Inv R s) {p n c : ℕ} (hf : s.Fresh p n) (hc : p ≤ c)
    (hc' : c < p + n) : c ∉ (areasOf true R).map Prod.fst := fun hm => by
  obtain ⟨f, hf', hfa⟩ := List.mem_map.1 hm
  obtain ⟨m, hm, hma, hm32, -⟩ := hinv.core.inside f hf'
  have := hinv.far hf hm
  omega

/-- **`heap_grow`** for the free lists: it fails, or a region with one free area joins
the heap. -/
theorem heapGrow_inv (hinv : Inv R s) {size ptr : ℕ} (hs : heapGrow size none s = some (ptr, s')) :
    (ptr = 0 ∧ Inv R s' ∨ 0 < ptr ∧ Inv (⟨ptr, 16, [⟨growSize size - 32, true⟩]⟩ :: R) s') ∧
      s'.live = s.live := by
  have hmod := growSize_mod size
  simp only [heapGrow] at hs
  generalize growSize size = n at *
  have hn : n / 4096 * 4096 = n := by omega
  rcases pageAlloc_cases (n / 4096) s with ⟨as, ha⟩ | ⟨p, as, hf, ha⟩
  · rw [ha] at hs
    simp only [if_true, Option.some.injEq, Prod.mk.injEq] at hs
    obtain ⟨rfl, rfl⟩ := hs
    exact ⟨.inl ⟨rfl, hinv.lock s.locked as⟩, rfl⟩
  · rw [ha, hn] at hs
    rw [hn] at hf
    have hp0 := hf.2.1
    have hp8 := hf.2.2.1
    have hn0 := hf.1
    have htop := hf.2.2.2.1
    simp only [if_neg (Nat.ne_of_gt hp0), addToHeap, Option.bind_eq_bind, Option.bind_eq_some_iff,
      Option.some.injEq, Prod.mk.injEq] at hs
    obtain ⟨s₃, ⟨s₂, hs₂, rfl⟩, rfl, rfl⟩ := hs
    rw [show sub64 n (2 * 16) = n - 32 from sub64_of_le (by omega) (by omega)] at hs₂
    have h₁ : Core _ _ { s with
        answers := as, held := (p, n) :: s.held, size := u64 (s.size + n) } :=
      (hinv.claimPages hf hmod).congr rfl rfl rfl rfl
    have h₂ := h₁.allocationHeader (A := []) (show p + 0 = p from rfl) 16 0
    have hnew := hinv.not_mem_fresh hf (show p ≤ p + 16 by omega) (by omega)
    obtain ⟨h₃, ho⟩ := h₂.push (A := [⟨p, 16, untag 0, 16⟩])
      (n := ⟨p + 16, n - 32, s.mem (p + 16), s.mem (p + 16 + 8)⟩) (by simp only; omega) le_rfl
      hnew hs₂
    have h₄ := h₃.allocationHeader
      (A := [⟨p, 16, untag 0, 16⟩, ⟨p + 16, n - 32, tagAsFree p, n - 32⟩])
      (n := ⟨p + n - 16, 16, s.mem (p + n - 16), s.mem (p + n - 16 + 8)⟩)
      (show p + n - 16 + 0 = p + n - 16 from rfl) 0 (p + 16)
    rw [tagAsFree_of_even (by omega), untag_of_even (by omega : (p + 16) % 2 = 0)] at h₄
    have hend : p + 16 + (n - 32) = p + n - 16 := by omega
    have hlive := Heap.live_of_outer ho
    refine ⟨.inr ⟨hp0, hinv.addRegion hf hmod ?_ (Heap.held_of_outer ho) (Heap.size_of_outer ho)
      hlive⟩, hlive⟩
    simpa [nodesOf, areasOf, Region.nodes, chain, picks, Area.node, hend, untag] using h₄

theorem sub64_u64_add {a b : ℕ} (ha : a < 2 ^ 64) : sub64 (u64 (a + b)) b = a := by
  unfold sub64 u64
  omega

/-- The headers of a region with one area. -/
theorem nodesOf_one (p n : ℕ) (b : Bool) (R : List Region) (hn : 32 ≤ n) :
    nodesOf (⟨p, 16, [⟨n - 32, b⟩]⟩ :: R) = ⟨p, 16, 0, 16⟩ ::
      ⟨p + 16, n - 32, p + b.toNat, n - 32⟩ :: ⟨p + n - 16, 16, p + 16, 0⟩ :: nodesOf R := by
  simp only [nodesOf, List.flatMap_cons, Region.nodes, chain, Area.node, List.cons_append,
    List.nil_append]
  rw [show p + 16 + (n - 32) = p + n - 16 by omega]

/-- **`heap_grow`** for a variable of its caller: the area of the fresh region is on no
list, and the counter is ahead by its size. -/
theorem heapGrow_own (hinv : Inv R s) {size ptr n : ℕ} (hn : growSize size = n)
    (hs : heapGrow size (some 0) s = some (ptr, s')) :
    (ptr = 0 ∧ ∃ as, s' = { s with answers := as }) ∨
      s.Fresh ptr n ∧
      Core (nodesOf (⟨ptr, 16, [⟨n - 32, true⟩]⟩ :: R)) (areasOf true R)
        { s' with remaining := s.remaining } ∧
      s'.remaining = u64 (s.remaining + (n - 32)) ∧
      s'.held = (ptr, n) :: s.held ∧ s'.size = u64 (s.size + n) ∧ s'.live = s.live := by
  have hmod := growSize_mod size
  simp only [heapGrow, hn] at hs
  rw [hn] at hmod
  have hn' : n / 4096 * 4096 = n := by omega
  rcases pageAlloc_cases (n / 4096) s with ⟨as, ha⟩ | ⟨q, as, hf, ha⟩
  · rw [ha] at hs
    simp only [if_true, Option.some.injEq, Prod.mk.injEq] at hs
    obtain ⟨rfl, rfl⟩ := hs
    exact .inl ⟨rfl, as, rfl⟩
  · rw [ha, hn'] at hs
    rw [hn'] at hf
    have hf' := hf
    obtain ⟨hn0, hq0, hq, htop, -⟩ := hf'
    have hsub : sub64 n (2 * 16) = n - 32 := sub64_of_le (by omega) (by omega)
    simp only [if_neg (Nat.ne_of_gt hq0), addToHeap, createFreeArea, linkFreeArea, hsub, ne_eq,
      not_true_eq_false, if_false, Option.bind_eq_bind, Option.bind_some, Option.some.injEq,
      Prod.mk.injEq] at hs
    obtain ⟨rfl, rfl⟩ := hs
    refine .inr ⟨hf, ?_, rfl, rfl, rfl, rfl⟩
    have hnew := hinv.not_mem_fresh hf (show q ≤ q + 16 by omega) (by omega)
    have h₀ : Core _ _ { s with
        answers := as, held := (q, n) :: s.held, size := u64 (s.size + n) } :=
      (hinv.claimPages hf hmod).congr rfl rfl rfl rfl
    have h₁ := h₀.allocationHeader (A := []) (show q + 0 = q from rfl) 16 0
    have h₂ := (h₁.setSize (A := [⟨q, 16, untag 0, 16⟩])
      (n := ⟨q + 16, n - 32, s.mem (q + 16), s.mem (q + 16 + 8)⟩) (n - 32)).setLeft
      (A := [⟨q, 16, untag 0, 16⟩]) (tagAsFree q)
    have h₃ : Core _ _ (((Heap.store (q + 16) (tagAsFree q) (Heap.store (q + 16 + 8) (n - 32)
        (createAllocationHeader q 0 16 0 { s with
          answers := as, held := (q, n) :: s.held,
          size := u64 (s.size + n) }))).store (q + 16 + 16) 0).store (q + 16 + 24) 0) :=
      h₂.interior (n := ⟨q + 16, n - 32, tagAsFree q, n - 32⟩) (by simp) hnew (fun c hc => by
        simp only at hc
        rw [Heap.store_of_ne (by omega), Heap.store_of_ne (by omega)]) rfl rfl rfl
    have h₄ := h₃.allocationHeader
      (A := [⟨q, 16, untag 0, 16⟩, ⟨q + 16, n - 32, tagAsFree q, n - 32⟩])
      (n := ⟨q + n - 16, 16, s.mem (q + n - 16), s.mem (q + n - 16 + 8)⟩)
      (show q + n - 16 + 0 = q + n - 16 from rfl) 0 (q + 16)
    rw [tagAsFree_of_even (by omega), untag_of_even (by omega : (q + 16) % 2 = 0)] at h₄
    rw [nodesOf_one _ _ _ _ (by omega)]
    exact h₄.congr (by rw [tagAsFree_of_even (by omega)]; rfl) rfl rfl rfl

/-- **`large_alloc`.**  When it fails it leaves the lock held. -/
theorem largeAlloc_handed (hinv : Inv R s) {size p n : ℕ} (hn : growSize (roundup size 8) = n)
    (hs : largeAlloc size s = some (p, s')) :
    (p = 0 ∧ Inv R s' ∧ s'.live = s.live) ∨
      ∃ R' a, p = a + 16 ∧ Handed R s R' s' a (n - 32) ∧ a % 4096 = 16 ∧ 4096 ≤ n := by
  have hmod := growSize_mod (roundup size 8)
  rw [hn] at hmod
  simp only [largeAlloc, Option.bind_eq_bind, Option.bind_eq_some_iff] at hs
  obtain ⟨s₀, hs₀, ⟨ptr, s₁⟩, hs₁, hs⟩ := hs
  obtain rfl := Heap.lock_eq_some hs₀
  rcases heapGrow_own (hinv.lock true s.answers) hn hs₁ with
    ⟨rfl, as, rfl⟩ | ⟨hf, hcore, hrem, hheld, hsize, hlive⟩
  · simp only [if_true, Option.some.injEq, Prod.mk.injEq] at hs
    obtain ⟨rfl, rfl⟩ := hs
    exact .inl ⟨rfl, hinv.lock true as, rfl⟩
  · have hf' := hf
    obtain ⟨hn0, hq0, hq, htop, -⟩ := hf'
    simp only [if_neg (Nat.ne_of_gt hq0), Option.some.injEq, Prod.mk.injEq] at hs
    obtain ⟨rfl, rfl⟩ := hs
    rw [nodesOf_one _ _ _ _ (by omega)] at hcore
    obtain ⟨hl, hz⟩ := hcore.header ⟨ptr + 16, n - 32, ptr + 1, n - 32⟩ (by simp)
    simp only at hl hz
    have h₁ := hcore.allocationHeader (A := [⟨ptr, 16, 0, 16⟩])
      (n := ⟨ptr + 16, n - 32, ptr + 1, n - 32⟩) (show ptr + 16 + 0 = ptr + 16 from rfl)
      (n - 32) (ptr + 1)
    obtain ⟨-, hz'⟩ := h₁.header ⟨ptr + 16, n - 32, untag (ptr + 1), n - 32⟩ (by simp)
    simp only [untag_succ (by omega : ptr % 2 = 0)] at h₁ hz'
    have hlt : s.remaining < 2 ^ 64 := by
      obtain ⟨L, hL⟩ := hinv.core.lists
      rw [hL.remaining]
      exact hinv.core.sum_lt
    have hareas : areasOf true (⟨ptr, 16, [⟨n - 32, false⟩]⟩ :: R) = areasOf true R := by
      simp [areasOf, picks]
    have hused : areasOf false (⟨ptr, 16, [⟨n - 32, false⟩]⟩ :: R) =
        (ptr + 16, n - 32) :: areasOf false R := by
      simp [areasOf, picks]
    refine .inr ⟨⟨ptr, 16, [⟨n - 32, false⟩]⟩ :: R, ptr + 16, rfl, ⟨?_, hlive, ?_, ?_, ?_⟩,
      by omega, by omega⟩
    · refine (hinv.lock true s.answers).addRegion hf hmod ?_ hheld hsize hlive
      rw [nodesOf_one _ _ _ _ (by omega), hareas]
      refine h₁.congr ?_ rfl rfl ?_
      · rw [hl, hz]
        rfl
      · rw [hl, hz]
        exact (congrArg₂ sub64 hrem hz').trans (sub64_u64_add hlt)
    · rw [hused]
      exact List.mem_cons_self
    · intro z' hz'
      obtain ⟨m, hm, hma, hms, -⟩ := hinv.node_of_area hz'
      have := hinv.far hf hm
      have := (hinv.size_lt hz').1
      simp only at hma hms this
      omega
    · intro f hf
      rw [hused]
      exact List.mem_cons_of_mem _ hf

end Grow

section CmpctAlloc

variable {R : List Region} {s s' : Heap}

/-- The loop that grows the heap adds free areas alone. -/
theorem growLoop_inv {roundedUp : ℕ} {grown : Bool} : ∀ {fuel growby : ℕ} {R : List Region}
    {s : Heap}, Inv R s → growLoop roundedUp fuel growby s = some (grown, s') →
    ∃ R', Inv R' s' ∧ s'.live = s.live ∧ areasOf false R' = areasOf false R
  | fuel + 1, growby, R, s, hinv, hs => by
      simp only [growLoop, Option.bind_eq_bind, Option.bind_eq_some_iff] at hs
      obtain ⟨⟨ptr, s₁⟩, hs₁, hs⟩ := hs
      obtain ⟨hgrow, hlive⟩ := heapGrow_inv hinv hs₁
      rcases hgrow with ⟨rfl, hinv₁⟩ | ⟨hpos, hinv₁⟩
      · simp only [ne_eq, not_true_eq_false, if_false] at hs
        split_ifs at hs with hle
        · cases hs
          exact ⟨R, hinv₁, hlive, rfl⟩
        · obtain ⟨R', hinv', hlive', hused⟩ := growLoop_inv hinv₁ hs
          exact ⟨R', hinv', hlive'.trans hlive, hused⟩
      · simp only [ne_eq, Nat.ne_of_gt hpos, not_false_eq_true, if_true] at hs
        cases hs
        exact ⟨_, hinv₁, hlive, by simp [areasOf, picks]⟩

/-- A block whose layout came from `R` by growing is new to `R` too. -/
theorem Handed.of_grown {R R₁ R' : List Region} {s s₁ s' : Heap} {a z : ℕ}
    (h : Handed R₁ s₁ R' s' a z) (hlive : s₁.live = s.live)
    (hused : areasOf false R₁ = areasOf false R) : Handed R s R' s' a z :=
  ⟨h.inv, h.live.trans hlive, h.block, hused ▸ h.new, hused ▸ h.keeps⟩

/-- The sizes of the blocks that `cmpct_alloc` hands out: room for the payload and its
header below 4 MB, and above that a region less its two sentinels. -/
def AllocSize (size a z : ℕ) : Prop :=
  (size + 16 ≤ 2 ^ 22 ∧ (size + 7) / 8 * 8 + 16 ≤ z) ∨
    (2 ^ 22 < u64 (size + 16) ∧ z = growSize (roundup size 8) - 32 ∧ a % 4096 = 16 ∧
      4096 ≤ growSize (roundup size 8))

/-- **`cmpct_alloc`.** -/
theorem cmpctAlloc_handed {c : Config} (hinv : Inv R s) {size p : ℕ} (hsize : size < 2 ^ 64)
    (hs : cmpctAlloc c size s = some (p, s')) :
    (p = 0 ∧ ∃ R', Inv R' s' ∧ s'.live = s.live ∧ areasOf false R' = areasOf false R) ∨
      ∃ R' a z, p = a + 16 ∧ Handed R s R' s' a z ∧ AllocSize size a z := by
  unfold cmpctAlloc at hs
  split_ifs at hs with h0 hlarge
  · cases hs
    exact .inl ⟨rfl, R, hinv, rfl, rfl⟩
  · rcases largeAlloc_handed hinv rfl hs with ⟨rfl, hinv', hlive⟩ | ⟨R', a, rfl, hh, ha, hn⟩
    · exact .inl ⟨rfl, R, hinv', hlive, rfl⟩
    · exact .inr ⟨R', a, _, rfl, hh, .inr ⟨hlarge, rfl, ha, hn⟩⟩
  · simp only [Option.bind_eq_bind, Option.bind_eq_some_iff] at hs
    obtain ⟨s₀, hs₀, start, hstart, hs⟩ := hs
    obtain ⟨hsmall, hstart'⟩ := small_of_bucketOf hsize hlarge hstart
    obtain ⟨hr8, hr16, hrsize, hrtop⟩ := rounded_spec (Nat.pos_of_ne_zero h0) (by omega)
    rw [u64_of_lt (by omega)] at hs
    obtain rfl := Heap.lock_eq_some hs₀
    have hinv₀ := hinv.lock true s.answers
    have hroom : ∀ {z : ℕ}, (sizeToIndexAllocating size).2 + 16 ≤ z →
        (size + 7) / 8 * 8 + 16 ≤ z := fun h => by omega
    split at hs
    · rename_i bucket hbucket
      obtain ⟨hle, hbit⟩ := findNonemptyBucket_spec hstart' hbucket
      obtain ⟨R', a, z, rfl, hh, hz⟩ := allocFrom_handed hinv₀ (Nat.pos_of_ne_zero h0) hsmall
        hstart hle hbit hs
      exact .inr ⟨R', a, z, rfl, hh.of_grown rfl rfl, .inl ⟨hsmall, hroom hz⟩⟩
    · simp only [Option.bind_eq_some_iff] at hs
      obtain ⟨⟨grown, s₁⟩, hs₁, hs⟩ := hs
      obtain ⟨R₁, hinv₁, hlive, hused⟩ := growLoop_inv hinv₀ hs₁
      split_ifs at hs with hgrown
      · simp only [Option.bind_eq_some_iff] at hs
        obtain ⟨bucket, hbucket, hs⟩ := hs
        obtain ⟨hle, hbit⟩ := findNonemptyBucket_spec hstart' hbucket
        obtain ⟨R', a, z, rfl, hh, hz⟩ := allocFrom_handed hinv₁ (Nat.pos_of_ne_zero h0) hsmall
          hstart hle hbit hs
        exact .inr ⟨R', a, z, rfl, hh.of_grown hlive hused, .inl ⟨hsmall, hroom hz⟩⟩
      · cases hs
        exact .inl ⟨rfl, R₁, hinv₁.lock false _, hlive, hused⟩

end CmpctAlloc

section Free

variable {R : List Region} {h : Hole} {mid : List Area} {s s₁ s' : Heap}

variable {N : List Node}

section

variable (hinv : Inv (h.fill mid) s)
include hinv

/-- The header before a hole: the left sentinel, or that of the area before it. -/
theorem Inv.left_header {F : List (ℕ × ℕ)} {e : ℕ} (hc : Core (N ++ h.others e) F s') :
    (h.pre = [] ∧ h.left = h.base ∧ s'.mem h.left = 0 ∧ s'.mem (h.left + 8) = h.sentinel) ∨
      ∃ pre y l, h.pre = pre ++ [y] ∧ s'.mem h.left = l + y.free.toNat ∧ 0 < l ∧ l % 2 = 0 := by
  have hr := hinv.region_ok
  rcases List.eq_nil_or_concat h.pre with hnil | ⟨pre, y, hcons⟩
  · have hbase : h.left = h.base := by rw [Hole.left, hnil]; rfl
    obtain ⟨hl, hz⟩ := hc.header ⟨h.base, h.sentinel, 0, h.sentinel⟩ (by simp [Hole.others])
    rw [hbase]
    exact .inl ⟨hnil, rfl, hl, hz⟩
  · rw [List.concat_eq_append] at hcons
    have hleft : h.left = h.base + h.sentinel + total pre := by
      rw [Hole.left, hcons, lastHeader_append]
    have hok : ∀ x ∈ pre, x.Ok := fun x hx => hr.areas x (by simp [Hole.region, hcons, hx])
    have hs := hr.sentinel
    have hb := hr.base
    have hb0 := hr.pos
    simp only [Hole.region] at hs hb hb0
    obtain ⟨hl8, hl0, -⟩ := lastHeader_facts hok (l := h.base) (a := h.base + h.sentinel)
      (by omega) hb0 (by omega) (by omega)
    have hmem := (hc.header (y.node (lastHeader h.base (h.base + h.sentinel) pre) h.left)
      (by simp [Hole.others, hcons, front_append, hleft])).1
    exact .inr ⟨pre, y, _, hcons, hmem, hl0, by omega⟩

/-- The header behind a hole: the right sentinel, or that of the area behind it. -/
theorem Inv.right_header {A B : List Node} {F : List (ℕ × ℕ)} {l e : ℕ}
    (hl : l % 2 = 0) (hc : Core (A ++ follow l e h.post :: B) F s') :
    (h.post = [] ∧ s'.mem (e + 8) = 0 ∧ s'.mem e % 2 = 0) ∨
      ∃ y post, h.post = y :: post ∧ s'.mem (e + 8) = y.size ∧ y.size ≠ 0 ∧
        s'.mem e % 2 = y.free.toNat := by
  obtain ⟨hleft, hsize⟩ := hc.header (follow l e h.post) (by simp)
  rw [follow_addr] at hleft hsize
  cases hpost : h.post with
  | nil =>
    rw [hpost] at hleft hsize
    exact .inl ⟨rfl, hsize, by rw [hleft]; exact hl⟩
  | cons y post =>
    rw [hpost] at hleft hsize
    have hy := (hinv.region_ok.areas y (by simp [Hole.region, hpost])).2.1
    refine .inr ⟨y, post, rfl, hsize, by omega, ?_⟩
    rw [hleft]
    cases hf : y.free <;> simp [follow, Area.node, hf] <;> omega

/-- **A region goes back to the system.**  Its areas and sentinels are one range of
pages, and no other region is touched. -/
theorem Inv.giveBack (hpre : h.pre = []) (hpost : h.post = []) (hc : Core (N ++ nodesOf (h.before ++ h.after))
      (areasOf true (h.before ++ h.after)) s₁) (ho : s₁.outer = s.outer)
    (hlive : ∀ f ∈ picks false h.addr mid, f.1 + 16 ∉ s.live) :
    Inv (h.before ++ h.after) (freeToOs h.base (h.region mid).len s₁) := by
  have hr := hinv.region_ok
  have hmod : (h.region mid).len / 4096 * 4096 = (h.region mid).len := by
    have := hr.len
    omega
  have hsub : (h.before ++ h.after).Sublist (h.fill mid) :=
    List.Sublist.append_left (List.sublist_cons_self _ _) _
  have hok : ∀ r ∈ h.before ++ h.after, r.Ok := fun r hr => hinv.ok r (hsub.subset hr)
  have hapart := hinv.apart
  have hheld := hinv.held
  have hrange : (h.region mid).range = (h.base, (h.region mid).len) := rfl
  simp only [Hole.fill, List.map_append, List.map_cons, hrange] at hapart hheld
  have hpos : 0 < (h.region mid).len := by simp [Region.len]
  refine ⟨hok, hinv.apart.sublist (hsub.map _), ?_, ?_, ?_, ?_⟩
  · exact (hc.restrict (List.sublist_append_right _ _) fun f hf => inside_of_ok hok hf).congr
      rfl rfl rfl rfl
  · simp only [freeToOs, pageFree, Heap.held_of_outer ho, hheld, hmod]
    rw [Ranges.flatMap_cut hapart le_rfl le_rfl, Ranges.cut_self hpos, List.append_nil,
      List.map_append]
  · have hsum := sum_len_lt hinv.ok hinv.apart
    have hsize := hinv.size
    simp only [Hole.fill, List.map_append, List.map_cons, List.sum_append, List.sum_cons]
      at hsum hsize
    simp only [freeToOs, pageFree, Heap.size_of_outer ho, hsize, List.map_append, List.sum_append]
    rw [sub64_of_le (by omega) (by omega)]
    omega
  · have hlive' : s₁.live = s.live := Heap.live_of_outer ho
    refine ⟨by simpa [freeToOs, pageFree, hlive'] using hinv.live.1, fun p hp => ?_⟩
    have hp : p ∈ s.live := by simpa [freeToOs, pageFree, hlive'] using hp
    obtain ⟨f, hf, rfl⟩ := hinv.live.2 p hp
    rcases Hole.mem_fill.1 hf with hf | hf
    · exact absurd hp (hlive f hf)
    · exact ⟨f, by simpa [Hole.otherAreas, hpre, hpost, picks] using hf, rfl⟩

/-- A block is none of the free areas around it. -/
theorem Inv.used_not_other {a z : ℕ} (hm : (a, z) ∈ picks false h.addr mid) :
    a ∉ (h.otherAreas true (h.addr + total mid)).map Prod.fst := by
  have hfree := hinv.used_not_free (Hole.mem_fill.2 (.inl hm))
  rw [((h.areas_fill true mid).map Prod.fst).mem_iff, List.map_append, List.mem_append] at hfree
  exact fun hm => hfree (.inr hm)

/-- Where the area before is in use, its header has no tag. -/
theorem Inv.left_untagged {F : List (ℕ × ℕ)} {e : ℕ}
    (hc : Core (N ++ h.others e) F s') (hpre : ∀ y ∈ h.pre.getLast?, ¬y.free) :
    s'.mem h.left % 2 = 0 := by
  rcases hinv.left_header hc with ⟨-, -, h0, -⟩ | ⟨pre, y, l, hcons, hm, -, hl2⟩
  · rw [h0]
  · have : y.free = false := by simpa using hpre y (by simp [hcons])
    simpa [hm, this] using hl2

/-- Where the area behind is in use, its header has no tag. -/
theorem Inv.right_untagged {A B : List Node} {F : List (ℕ × ℕ)}
    {l e : ℕ} (hl : l % 2 = 0) (hc : Core (A ++ follow l e h.post :: B) F s')
    (hpost : ∀ y ∈ h.post.head?, ¬y.free) : s'.mem e % 2 = 0 := by
  rcases hinv.right_header hl hc with ⟨-, -, h0⟩ | ⟨y, post, hcons, -, -, hm⟩
  · exact h0
  · have : y.free = false := by simpa using hpost y (by simp [hcons])
    simpa [this] using hm

end

/-- What freeing a block `(a, z)` leaves: the invariant, and every other block. -/
def Freed (R : List Region) (s : Heap) (a z : ℕ) (s' : Heap) : Prop :=
  ∃ R', Inv R' s' ∧ s'.live = s.live ∧ ∀ f ∈ areasOf false R, f ≠ (a, z) → f ∈ areasOf false R'

/-- **`free_memory`** on a hole whose areas, one of them a block, have been joined to one
header. -/
theorem Inv.freeMemory (hinv : Inv (h.fill mid) s) {Z w q left a z : ℕ} (ht : total mid = Z)
    (hone : picks false h.addr mid = [(a, z)])
    (hZ : 32 ≤ Z) (hpre : ∀ y ∈ h.pre.getLast?, ¬y.free) (hpost : ∀ y ∈ h.post.head?, ¬y.free)
    (hc : Core (⟨h.addr, Z, w, q⟩ :: follow h.addr (h.addr + Z) h.post :: h.others (h.addr + Z))
      (h.otherAreas true (h.addr + Z)) s₁)
    (hF : h.addr ∉ (h.otherAreas true (h.addr + Z)).map Prod.fst) (ho : s₁.outer = s.outer)
    (hlive : a + 16 ∉ s.live) (hl : untag left = h.left)
    (hs : freeMemory h.addr left Z s₁ = some s') : Freed (h.fill mid) s a z s' := by
  replace hlive : ∀ f ∈ picks false h.addr mid, f.1 + 16 ∉ s.live := by simpa [hone] using hlive
  -- the other blocks are where they were
  have hother : ∀ f ∈ areasOf false (h.fill mid), f ≠ (a, z) →
      f ∈ h.otherAreas false (h.addr + Z) := fun f hf hne => by
    rcases Hole.mem_fill.1 hf with hf | hf
    · exact absurd (by simpa [hone] using hf) hne
    · simpa [ht] using hf
  have hp := hinv.placed
  have ha8 := hp.addr_mod
  have hl8 := hp.left_mod
  have hleft := hinv.left_header (N := [_, _]) hc
  have hright := hinv.right_header (A := [_]) (by omega) hc
  simp only [Cmpct.freeMemory, hl, isStartOfOsAllocation, isEndOfOsAllocation, decide_eq_true_eq]
    at hs
  split_ifs at hs with htest
  · -- the areas are all there is between the sentinels
    obtain ⟨-, hstart, hend⟩ := htest
    obtain ⟨hnil, hbase, -, hsent⟩ : h.pre = [] ∧ h.left = h.base ∧ s₁.mem h.left = 0 ∧
        s₁.mem (h.left + 8) = h.sentinel := by
      rcases hleft with hleft | ⟨pre, y, l, -, hmem, hl0, -⟩
      · exact hleft
      · omega
    obtain ⟨hnil', -⟩ : h.post = [] ∧ s₁.mem (h.addr + Z + 8) = 0 ∧ _ := by
      rcases hright with hright | ⟨y, post, -, hsize, hne, -⟩
      · exact hright
      · omega
    have hlen : Z + h.sentinel + 16 = (h.region mid).len := by
      simp only [Region.len, Hole.region, hnil, hnil', List.nil_append, List.append_nil]
      omega
    have hlt : (h.region mid).len < 2 ^ 64 := by
      have := hinv.region_ok.top
      omega
    rw [hsent, hlen, u64_of_lt hlt, hbase] at hs
    cases hs
    have hlive' := Heap.live_of_outer ho
    have hc' : Core ([⟨h.addr, Z, w, q⟩, follow h.addr (h.addr + Z) h.post,
        ⟨h.base, h.sentinel, 0, h.sentinel⟩] ++ nodesOf (h.before ++ h.after))
        (areasOf true (h.before ++ h.after)) s₁ := by
      simpa [Hole.others, Hole.otherAreas, hnil, hnil', front, behind, picks] using hc
    refine ⟨_, hinv.giveBack hnil hnil' hc' ho hlive, hlive', fun f hf hne => ?_⟩
    simpa [Hole.otherAreas, hnil, hnil', picks] using hother f hf hne
  · obtain ⟨h₁, ho₁⟩ := hc.push (A := []) (by simpa using hZ) le_rfl hF hs
    rw [tagAsFree_of_even (by omega)] at h₁
    have hareas : ∀ x ∈ mid, x.Ok := hp.areas
    have hmod := total_mod hareas
    have hinv' : Inv (h.fill [⟨Z, true⟩]) s' := by
      refine hinv.refill (by simp [ht]) ?_ (hinv.region_ok.alternating.refill
        (by simp [Alternating]) (by simp) (fun _ _ _ => hpre) (fun _ _ _ => hpost)) ?_
        (ho₁.trans ho) (fun f hf hf' => absurd hf' (hlive f hf))
      · simp only [List.mem_singleton, forall_eq, Area.Ok]
        omega
      · simpa [front, lastHeader, picks, Area.node, ht] using h₁
    exact ⟨_, hinv', Heap.live_of_outer (ho₁.trans ho), fun f hf hne =>
      Hole.mem_fill.2 (.inr (by simpa using hother f hf hne))⟩

/-- There is room for a `free_t` in the area that freeing the block leaves. -/
def RoomToFree (payload : ℕ) (s : Heap) : Prop :=
  32 ≤ s.mem (payload - 16 + 8) ∨ isTaggedAsFree (s.mem (payload - 16)) s ∨
    isTaggedAsFree (rightHeader (payload - 16) s) s

instance (payload : ℕ) (s : Heap) : Decidable (RoomToFree payload s) :=
  inferInstanceAs (Decidable (_ ∨ _))

/-- `unlink_free_unknown_bucket` on a node that is a free area. -/
theorem Core.unlinkUnknown {F : List (ℕ × ℕ)} {n : Node} {a z : ℕ}
    (hc : Core N ((a, z) :: F) s) (hn : n ∈ N) (ha : n.addr = a) (hz : n.size = z)
    (hs : unlinkFreeUnknownBucket a s = some s') : Core N F s' ∧ s'.outer = s.outer := by
  simp only [unlinkFreeUnknownBucket, Option.bind_eq_bind, Option.bind_eq_some_iff] at hs
  obtain ⟨b, hb, hs⟩ := hs
  rw [← ha, (hc.header n hn).2, hz] at hb
  exact hc.unlink hn ha hz hb hs

section Cases

variable {x y z : ℕ}

theorem Inv.freeAlone (hinv : Inv (h.fill [⟨z, false⟩]) s) (hz : 32 ≤ z)
    (hpre : ∀ y ∈ h.pre.getLast?, ¬y.free) (hpost : ∀ y ∈ h.post.head?, ¬y.free)
    (hlive : h.addr + 16 ∉ s.live) (hs : freeLocked h.addr s = some s') :
    Freed (h.fill [⟨z, false⟩]) s h.addr z s' := by
  have hp := hinv.placed
  have hl8 := hp.left_mod
  have ha8 := hp.addr_mod
  have hc : Core (⟨h.addr, z, h.left, z⟩ :: follow h.addr (h.addr + z) h.post ::
      h.others (h.addr + z)) (h.otherAreas true (h.addr + z)) s := by
    simpa [picks, Area.node] using hinv.core_one
  obtain ⟨hleft, hsize⟩ := hc.header _ List.mem_cons_self
  simp only at hleft hsize
  have htagl := hinv.left_untagged (N := [_, _]) hc hpre
  have htagr := hinv.right_untagged (A := [_]) (by omega) hc hpost
  simp only [freeLocked, hleft, hsize, isTaggedAsFree, rightHeader, htagl, htagr, zero_ne_one,
    decide_false, Bool.false_eq_true, and_false, if_false] at hs
  have hF := hinv.used_not_other (a := h.addr) (z := z) (by simp [picks])
  exact hinv.freeMemory (by simp) (by simp [picks]) hz hpre hpost hc hF rfl hlive
    (untag_of_even (by omega)) hs

/-- A block is freed behind a free area, and becomes part of it. -/
theorem Inv.freeLeft (hinv : Inv (h.fill [⟨y, true⟩, ⟨z, false⟩]) s)
    (hpost : ∀ y ∈ h.post.head?, ¬y.free) (hlive : h.addr + y + 16 ∉ s.live)
    (hs : freeLocked (h.addr + y) s = some s') :
    Freed (h.fill [⟨y, true⟩, ⟨z, false⟩]) s (h.addr + y) z s' := by
  have hp := hinv.placed
  have hl8 := hp.left_mod
  have ha8 := hp.addr_mod
  obtain ⟨hy8, -, hy32⟩ := hp.areas ⟨y, true⟩ (by simp)
  have hy32 := hy32 rfl
  have hlt := hp.left_lt
  have htop := hp.top
  simp only [total_cons, total_nil, Nat.add_zero] at htop hy8 hy32
  have hc : Core (⟨h.addr, y, h.left + 1, y⟩ :: ⟨h.addr + y, z, h.addr, z⟩ ::
      follow (h.addr + y) (h.addr + (y + z)) h.post :: h.others (h.addr + (y + z)))
      ((h.addr, y) :: h.otherAreas true (h.addr + (y + z))) s := by
    simpa [front, lastHeader, picks, Area.node] using hinv.core_fill
  obtain ⟨htag, -⟩ := hc.header ⟨h.addr, y, h.left + 1, y⟩ (by simp)
  obtain ⟨hleft, hsize⟩ := hc.header ⟨h.addr + y, z, h.addr, z⟩ (by simp)
  simp only at htag hleft hsize
  have htag' : s.mem h.addr % 2 = 1 := by omega
  have ha0 : h.addr ≠ 0 := by omega
  simp only [freeLocked, hleft, hsize, isTaggedAsFree, htag', ha0, ne_eq, not_false_eq_true,
    decide_true, and_self, if_true, Option.bind_eq_bind, Option.bind_eq_some_iff] at hs
  obtain ⟨s₁, hs₁, hs⟩ := hs
  obtain ⟨hc₁, ho⟩ := hc.unlinkUnknown List.mem_cons_self rfl rfl hs₁
  obtain ⟨-, hsize₁⟩ := hc₁.header ⟨h.addr + y, z, h.addr, z⟩ (by simp)
  simp only at hsize₁
  have htagr := hinv.right_untagged (A := [_, _]) (by omega) hc₁ hpost
  have hright : rightHeader (h.addr + y) s₁ = h.addr + (y + z) := by
    rw [rightHeader, hsize₁, Nat.add_assoc]
  simp only [hright, htagr, zero_ne_one, decide_false, Bool.false_eq_true, if_false] at hs
  have hF : h.addr ∉ (h.otherAreas true (h.addr + (y + z))).map Prod.fst :=
    (List.nodup_cons.1 hc.nodup).1
  have hF' := hinv.used_not_other (a := h.addr + y) (z := z) (by simp [picks])
  have hc₂ := hc₁.fixLeft (A := [_, _]) (by omega) (show h.addr % 2 = 0 by omega)
  obtain ⟨hl₂, hz₂⟩ := hc₂.header ⟨h.addr, y, h.left + 1, y⟩ (by simp)
  simp only at hl₂ hz₂
  rw [hl₂, hz₂, u64_of_lt (by omega)] at hs
  have hc₃ := hc₂.join (A := []) (n := ⟨h.addr, y, h.left + 1, y⟩) hF hF' rfl
  exact hinv.freeMemory (by simp) (by simp [picks]) (by simp only; omega)
    (hinv.region_ok.alternating.before rfl) hpost hc₃ hF ho hlive (untag_succ (by omega)) hs

/-- A block is freed in front of a free area, which becomes part of it. -/
theorem Inv.freeRight (hinv : Inv (h.fill [⟨z, false⟩, ⟨x, true⟩]) s)
    (hpre : ∀ y ∈ h.pre.getLast?, ¬y.free) (hlive : h.addr + 16 ∉ s.live)
    (hs : freeLocked h.addr s = some s') :
    Freed (h.fill [⟨z, false⟩, ⟨x, true⟩]) s h.addr z s' := by
  have hp := hinv.placed
  have hl8 := hp.left_mod
  have ha8 := hp.addr_mod
  obtain ⟨hz8, -, -⟩ := hp.areas ⟨z, false⟩ (by simp)
  obtain ⟨hx8, -, hx32⟩ := hp.areas ⟨x, true⟩ (by simp)
  have hx32 := hx32 rfl
  have htop := hp.top
  simp only [total_cons, total_nil, Nat.add_zero] at htop hx8 hx32 hz8
  have hc : Core (⟨h.addr, z, h.left, z⟩ :: ⟨h.addr + z, x, h.addr + 1, x⟩ ::
      follow (h.addr + z) (h.addr + (z + x)) h.post :: h.others (h.addr + (z + x)))
      ((h.addr + z, x) :: h.otherAreas true (h.addr + (z + x))) s := by
    simpa [front, lastHeader, picks, Area.node] using hinv.core_fill
  obtain ⟨hleft, hsize⟩ := hc.header ⟨h.addr, z, h.left, z⟩ (by simp)
  obtain ⟨htag, hxsize⟩ := hc.header ⟨h.addr + z, x, h.addr + 1, x⟩ (by simp)
  simp only at htag hleft hsize hxsize
  have htagl := hinv.left_untagged (N := [_, _, _]) hc hpre
  have htag' : s.mem (h.addr + z) % 2 = 1 := by omega
  have hright : rightHeader h.addr s = h.addr + z := by rw [rightHeader, hsize]
  have hright' : rightHeader (h.addr + z) s = h.addr + (z + x) := by
    rw [rightHeader, hxsize, Nat.add_assoc]
  simp only [freeLocked, hleft, hsize, isTaggedAsFree, hright, hright', htagl, htag', zero_ne_one,
    decide_false, decide_true, Bool.false_eq_true, and_false, if_false, if_true,
    Option.bind_eq_bind, Option.bind_eq_some_iff] at hs
  obtain ⟨s₁, hs₁, hs⟩ := hs
  obtain ⟨hc₁, ho⟩ := hc.unlinkUnknown (n := ⟨h.addr + z, x, h.addr + 1, x⟩) (by simp) rfl rfl hs₁
  have hF' : h.addr + z ∉ (h.otherAreas true (h.addr + (z + x))).map Prod.fst :=
    (List.nodup_cons.1 hc.nodup).1
  have hF := hinv.used_not_other (a := h.addr) (z := z) (by simp [picks])
  have hc₂ := hc₁.fixLeft (A := [_, _]) (by omega) (show h.addr % 2 = 0 by omega)
  obtain ⟨-, hx₂⟩ := hc₂.header ⟨h.addr + z, x, h.addr + 1, x⟩ (by simp)
  simp only at hx₂
  rw [hx₂, u64_of_lt (by omega)] at hs
  have hc₃ := hc₂.join (A := []) (n := ⟨h.addr, z, h.left, z⟩) hF hF' rfl
  have hpost : ∀ y ∈ h.post.head?, ¬y.free := by
    have halt : Alternating ((h.pre ++ [⟨z, false⟩]) ++ ⟨x, true⟩ :: h.post) := by
      simpa [Hole.region] using hinv.region_ok.alternating
    exact halt.behind rfl
  exact hinv.freeMemory (by simp) (by simp [picks]) (by simp only; omega) hpre hpost hc₃ hF ho
    hlive (untag_of_even (by omega)) hs

/-- The areas before and behind are free. -/
theorem Inv.freeBoth (hinv : Inv (h.fill [⟨y, true⟩, ⟨z, false⟩, ⟨x, true⟩]) s)
    (hlive : h.addr + y + 16 ∉ s.live) (hs : freeLocked (h.addr + y) s = some s') :
    Freed (h.fill [⟨y, true⟩, ⟨z, false⟩, ⟨x, true⟩]) s (h.addr + y) z s' := by
  have hp := hinv.placed
  have hl8 := hp.left_mod
  have ha8 := hp.addr_mod
  obtain ⟨hy8, -, hy32⟩ := hp.areas ⟨y, true⟩ (by simp)
  obtain ⟨hz8, -, -⟩ := hp.areas ⟨z, false⟩ (by simp)
  obtain ⟨hx8, -, hx32⟩ := hp.areas ⟨x, true⟩ (by simp)
  have hy32 := hy32 rfl
  have hlt := hp.left_lt
  have htop := hp.top
  simp only [total_cons, total_nil, Nat.add_zero] at htop hy8 hy32 hz8 hx8
  have hc : Core (⟨h.addr, y, h.left + 1, y⟩ :: ⟨h.addr + y, z, h.addr, z⟩ ::
      ⟨h.addr + y + z, x, h.addr + y + 1, x⟩ ::
      follow (h.addr + y + z) (h.addr + (y + (z + x))) h.post :: h.others (h.addr + (y + (z + x))))
      ((h.addr, y) :: (h.addr + y + z, x) :: h.otherAreas true (h.addr + (y + (z + x)))) s := by
    simpa [front, lastHeader, picks, Area.node] using hinv.core_fill
  obtain ⟨htag, -⟩ := hc.header ⟨h.addr, y, h.left + 1, y⟩ (by simp)
  obtain ⟨hleft, hsize⟩ := hc.header ⟨h.addr + y, z, h.addr, z⟩ (by simp)
  simp only at htag hleft hsize
  have htag' : s.mem h.addr % 2 = 1 := by omega
  have ha0 : h.addr ≠ 0 := by omega
  simp only [freeLocked, hleft, hsize, isTaggedAsFree, htag', ha0, ne_eq, not_false_eq_true,
    decide_true, and_self, if_true, Option.bind_eq_bind, Option.bind_eq_some_iff] at hs
  obtain ⟨s₁, hs₁, hs⟩ := hs
  obtain ⟨hc₁, ho₁⟩ := hc.unlinkUnknown List.mem_cons_self rfl rfl hs₁
  obtain ⟨-, hsize₁⟩ := hc₁.header ⟨h.addr + y, z, h.addr, z⟩ (by simp)
  obtain ⟨htagx, -⟩ := hc₁.header ⟨h.addr + y + z, x, h.addr + y + 1, x⟩ (by simp)
  simp only at hsize₁ htagx
  have hright : rightHeader (h.addr + y) s₁ = h.addr + y + z := by rw [rightHeader, hsize₁]
  have htagr : s₁.mem (h.addr + y + z) % 2 = 1 := by omega
  simp only [hright, htagr, decide_true, if_true, Option.bind_eq_some_iff] at hs
  obtain ⟨s₂, hs₂, hs⟩ := hs
  obtain ⟨hc₂, ho₂⟩ := hc₁.unlinkUnknown (n := ⟨h.addr + y + z, x, h.addr + y + 1, x⟩) (by simp)
    rfl rfl hs₂
  obtain ⟨-, hxsize⟩ := hc₂.header ⟨h.addr + y + z, x, h.addr + y + 1, x⟩ (by simp)
  simp only at hxsize
  have hright' : rightHeader (h.addr + y + z) s₂ = h.addr + (y + (z + x)) := by
    rw [rightHeader, hxsize]
    omega
  rw [hright'] at hs
  obtain ⟨hF, hnd⟩ := List.nodup_cons.1 hc.nodup
  have hFx : h.addr + y + z ∉ (h.otherAreas true (h.addr + (y + (z + x)))).map Prod.fst :=
    (List.nodup_cons.1 hnd).1
  have hF : h.addr ∉ (h.otherAreas true (h.addr + (y + (z + x)))).map Prod.fst :=
    fun hm => hF (List.mem_cons_of_mem _ hm)
  have hFz := hinv.used_not_other (a := h.addr + y) (z := z) (by simp [picks])
  have hc₃ := hc₂.fixLeft (A := [_, _, _]) (by omega) (show h.addr % 2 = 0 by omega)
  obtain ⟨hl₃, hz₃⟩ := hc₃.header ⟨h.addr, y, h.left + 1, y⟩ (by simp)
  obtain ⟨-, hx₃⟩ := hc₃.header ⟨h.addr + y + z, x, h.addr + y + 1, x⟩ (by simp)
  simp only at hl₃ hz₃ hx₃
  rw [hl₃, hz₃, hx₃, u64_of_lt (by omega), show y + z + x = y + (z + x) by omega] at hs
  have hc₄ := hc₃.join (A := [_]) (n := ⟨h.addr + y, z, h.addr, z⟩) hFz hFx rfl
  have hc₅ := hc₄.join (A := []) (n := ⟨h.addr, y, h.left + 1, y⟩) hF hFz rfl
  have hpost : ∀ y ∈ h.post.head?, ¬y.free := by
    have halt : Alternating ((h.pre ++ [⟨y, true⟩, ⟨z, false⟩]) ++ ⟨x, true⟩ :: h.post) := by
      simpa [Hole.region] using hinv.region_ok.alternating
    exact halt.behind rfl
  exact hinv.freeMemory (by simp) (by simp [picks]) (by simp only; omega)
    (hinv.region_ok.alternating.before rfl) hpost hc₅ hF (ho₂.trans ho₁) hlive
    (untag_succ (by omega)) hs

end Cases

/-- The hole of a block, grown over the area before it. -/
theorem Hole.fill_left {pre : List Area} {y x : Area} {M : List Area} (hpre : h.pre = pre ++ [y]) :
    h.fill (x :: M) = { h with pre := pre }.fill (y :: x :: M) ∧
      h.addr = { h with pre := pre }.addr + y.size := by
  constructor
  · simp [Hole.fill, Hole.region, hpre]
  · simp only [Hole.addr, hpre, total_append, total_cons, total_nil]
    omega

/-- The hole of a block, grown over the area behind it. -/
theorem Hole.fill_right {post : List Area} {x y : Area} (hpost : h.post = x :: post) :
    h.fill [y] = { h with post := post }.fill [y, x] := by
  simp [Hole.fill, Hole.region, hpost]

/-- The four cases of `cmpct_free` between `lock` and `unlock`. -/
theorem freeLocked_freed (hinv : Inv R s) {a z : ℕ} (hb : (a, z) ∈ areasOf false R)
    (hlive : a + 16 ∉ s.live) (hroom : RoomToFree (a + 16) s)
    (hs : freeLocked a s = some s') : Freed R s a z s' := by
  obtain ⟨h, rfl, rfl⟩ := Hole.exists_of_mem_areasOf hb
  simp only at *
  have hl8 := hinv.placed.left_mod
  have ha8 := hinv.placed.addr_mod
  have hc : Core (⟨h.addr, z, h.left, z⟩ :: follow h.addr (h.addr + z) h.post ::
      h.others (h.addr + z)) (h.otherAreas true (h.addr + z)) s := by
    simpa [picks, Area.node] using hinv.core_one
  obtain ⟨hleft, hsize⟩ := hc.header _ List.mem_cons_self
  simp only at hleft hsize
  by_cases hpre : ∀ y ∈ h.pre.getLast?, ¬y.free
  · by_cases hpost : ∀ y ∈ h.post.head?, ¬y.free
    · -- only here is the block freed alone, and has to hold the links itself
      refine hinv.freeAlone ?_ hpre hpost hlive hs
      rcases hroom with hroom | hroom | hroom
      · simpa [hsize] using hroom
      · exfalso
        simp only [Nat.add_sub_cancel, isTaggedAsFree, hleft, decide_eq_true_eq] at hroom
        have htagl := hinv.left_untagged (N := [_, _]) hc hpre
        omega
      · exfalso
        simp only [Nat.add_sub_cancel, isTaggedAsFree, rightHeader, hsize, decide_eq_true_eq]
          at hroom
        have htagr := hinv.right_untagged (A := [_]) (by omega) hc hpost
        omega
    · push Not at hpost
      obtain ⟨⟨x, b⟩, hx, hxf⟩ := hpost
      obtain ⟨post, hcons⟩ := List.head?_eq_some_iff.1 hx
      obtain rfl : b = true := hxf
      rw [Hole.fill_right hcons] at hinv ⊢
      exact hinv.freeRight hpre hlive hs
  · push Not at hpre
    obtain ⟨⟨y, b⟩, hy, hyf⟩ := hpre
    obtain ⟨pre, hcons⟩ := List.getLast?_eq_some_iff.1 hy
    obtain rfl : b = true := hyf
    by_cases hpost : ∀ y ∈ h.post.head?, ¬y.free
    · obtain ⟨hfill, haddr⟩ := Hole.fill_left (x := ⟨z, false⟩) (M := []) hcons
      rw [hfill] at hinv ⊢
      rw [haddr] at hlive hs ⊢
      exact hinv.freeLeft hpost hlive hs
    · push Not at hpost
      obtain ⟨⟨x, b⟩, hx, hxf⟩ := hpost
      obtain ⟨post, hcons'⟩ := List.head?_eq_some_iff.1 hx
      obtain rfl : b = true := hxf
      rw [Hole.fill_right hcons'] at hinv ⊢
      obtain ⟨hfill, haddr⟩ := Hole.fill_left (h := { h with post := post }) (x := ⟨z, false⟩)
        (M := [⟨x, true⟩]) hcons
      rw [hfill] at hinv ⊢
      have haddr : h.addr = { h with pre := pre, post := post }.addr + y := haddr
      rw [haddr] at hlive hs ⊢
      exact hinv.freeBoth hlive hs

/-- **`cmpct_free`** of a block in use. -/
theorem cmpctFree_freed (hinv : Inv R s) {a z : ℕ} (hb : (a, z) ∈ areasOf false R)
    (hlive : a + 16 ∉ s.live) (hroom : RoomToFree (a + 16) s)
    (hs : cmpctFree (a + 16) s = some s') : Freed R s a z s' := by
  obtain ⟨s₁, hs₁, rfl⟩ := cmpctFree_eq_some hs
  obtain ⟨R', hinv', hlive', hkeep⟩ := freeLocked_freed (hinv.lock true s.answers) hb hlive hroom hs₁
  exact ⟨R', hinv'.lock false _, hlive', hkeep⟩

end Free

end Cmpct
end LittleKernel
