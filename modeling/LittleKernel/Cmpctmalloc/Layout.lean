/-
# Regions, areas and the invariant of the compact heap

What the heap is for: a region of pages is a left sentinel, areas that are in use
or free, and a right sentinel.  `Region.nodes` lays the headers of a region out,
each with the address of the header before it, so a region whose headers are in
memory is tiled by them.

`WellFormed` is what a caller of the heap may rely on; `Inv` adds what the calls
need to keep it: page and word alignment, the least sizes, that the regions are
apart and that every live block is an area in use.

A call changes one stretch of areas of one region.  A `Hole` is the heap around such
a stretch, `Hole.fill` the heap with areas put there, and `Inv.refill` says that a
call keeps the invariant when it puts areas of the same total size there and brings
their headers and free lists in order.
-/

import Mathlib.Data.List.Chain
import Mathlib.Algebra.BigOperators.Group.List.Basic
import LittleKernel.Cmpctmalloc.FreeLists

namespace LittleKernel
namespace Cmpct

open Word

/-- An area: its size with the header, and whether it is free. -/
structure Area where
  size : ℕ
  free : Bool
  deriving DecidableEq

/-- The header of an area at `a` behind the header at `l`. -/
def Area.node (l a : ℕ) (x : Area) : Node := ⟨a, x.size, l + x.free.toNat, x.size⟩

/-- The bytes of some areas. -/
def total (xs : List Area) : ℕ := (xs.map Area.size).sum

@[simp] theorem total_nil : total [] = 0 := rfl

@[simp] theorem total_cons (x : Area) (xs : List Area) : total (x :: xs) = x.size + total xs := rfl

@[simp] theorem total_append (xs ys : List Area) : total (xs ++ ys) = total xs + total ys := by
  simp [total]

/-- A region of pages: where it starts, the size of its left sentinel, its areas. -/
structure Region where
  base : ℕ
  sentinel : ℕ
  areas : List Area
  deriving DecidableEq

/-- The headers from `a` on, the right sentinel included, behind the header at `l`. -/
def chain : ℕ → ℕ → List Area → List Node
  | l, a, [] => [⟨a, 16, l, 0⟩]
  | l, a, x :: xs => x.node l a :: chain a (a + x.size) xs

/-- The areas from `a` on that are free, or those that are in use, by address and size. -/
def picks (free : Bool) : ℕ → List Area → List (ℕ × ℕ)
  | _, [] => []
  | a, x :: xs =>
    if x.free = free then (a, x.size) :: picks free (a + x.size) xs
    else picks free (a + x.size) xs

namespace Region

/-- The headers of a region. -/
def nodes (r : Region) : List Node :=
  ⟨r.base, r.sentinel, 0, r.sentinel⟩ :: chain r.base (r.base + r.sentinel) r.areas

/-- The bytes of a region. -/
def len (r : Region) : ℕ := r.sentinel + total r.areas + 16

/-- The pages of a region. -/
def range (r : Region) : ℕ × ℕ := (r.base, r.len)

end Region

/-- The headers of the heap. -/
def nodesOf (R : List Region) : List Node := R.flatMap Region.nodes

/-- The areas of the heap that are free, or those that are in use. -/
def areasOf (free : Bool) (R : List Region) : List (ℕ × ℕ) :=
  R.flatMap fun r => picks free (r.base + r.sentinel) r.areas

/-- No two neighbours are free. -/
def Alternating (xs : List Area) : Prop := xs.IsChain fun x y => ¬(x.free ∧ y.free)

/-- **The heap is in order.**  The regions held are tiled by their headers, no two
neighbouring areas are free, the list of each bucket links exactly the free areas of
that bucket, a bit is set where the list is not empty, and the two counters are right
(the last three are `Lists`). -/
def WellFormed (s : Heap) : Prop :=
  ∃ (R : List Region) (L : ℕ → List ℕ),
    s.held = R.map Region.range ∧
    (∀ r ∈ R, (∀ n ∈ r.nodes, s.mem n.addr = n.left ∧ s.mem (n.addr + 8) = n.size) ∧
      Alternating r.areas) ∧
    Lists L (areasOf true R) s ∧ s.size = (R.map Region.len).sum

/-- An area is made of words and can hold what it has to. -/
def Area.Ok (x : Area) : Prop := x.size % 8 = 0 ∧ 24 ≤ x.size ∧ (x.free → 32 ≤ x.size)

/-- What holds of one region. -/
structure Region.Ok (r : Region) : Prop where
  pos : 0 < r.base
  base : r.base % 4096 = 0
  len : r.len % 4096 = 0
  top : r.base + r.len < 2 ^ 64
  sentinel : r.sentinel % 8 = 0 ∧ 16 ≤ r.sentinel ∧ r.sentinel < 48
  areas : ∀ x ∈ r.areas, x.Ok
  alternating : Alternating r.areas

/-- **The invariant.** -/
structure Inv (R : List Region) (s : Heap) : Prop where
  ok : ∀ r ∈ R, r.Ok
  apart : (R.map Region.range).Pairwise Ranges.Apart
  core : Core (nodesOf R) (areasOf true R) s
  held : s.held = R.map Region.range
  size : s.size = (R.map Region.len).sum
  live : s.live.Nodup ∧ ∀ p ∈ s.live, ∃ f ∈ areasOf false R, p = f.1 + 16

theorem Inv.wellFormed {R : List Region} {s : Heap} (h : Inv R s) : WellFormed s := by
  obtain ⟨L, hL⟩ := h.core.lists
  exact ⟨R, L, h.held,
    fun r hr => ⟨fun n hn => h.core.header n (List.mem_flatMap.2 ⟨r, hr, hn⟩),
      (h.ok r hr).alternating⟩, hL, h.size⟩

section Chains

/-- The headers of areas from `a` on, without what comes behind them. -/
def front : ℕ → ℕ → List Area → List Node
  | _, _, [] => []
  | l, a, x :: xs => x.node l a :: front a (a + x.size) xs

/-- The last header of areas from `a` on, `l` when there are none. -/
def lastHeader : ℕ → ℕ → List Area → ℕ
  | l, _, [] => l
  | _, a, x :: xs => lastHeader a (a + x.size) xs

/-- The first header at `a`: of an area, or the right sentinel. -/
def follow (l a : ℕ) : List Area → Node
  | [] => ⟨a, 16, l, 0⟩
  | x :: _ => x.node l a

/-- The headers behind the first one at `a`. -/
def behind (a : ℕ) : List Area → List Node
  | [] => []
  | x :: xs => chain a (a + x.size) xs

theorem chain_eq (l a : ℕ) (xs : List Area) : chain l a xs = follow l a xs :: behind a xs := by
  cases xs <;> rfl

theorem chain_append (l a : ℕ) (xs ys : List Area) :
    chain l a (xs ++ ys) = front l a xs ++ chain (lastHeader l a xs) (a + total xs) ys := by
  induction xs generalizing l a with
  | nil => rfl
  | cons x xs ih => simp [chain, front, lastHeader, ih, Nat.add_assoc]

theorem picks_append (b : Bool) (a : ℕ) (xs ys : List Area) :
    picks b a (xs ++ ys) = picks b a xs ++ picks b (a + total xs) ys := by
  induction xs generalizing a with
  | nil => rfl
  | cons x xs ih => by_cases hx : x.free = b <;> simp [picks, hx, ih, Nat.add_assoc]

theorem lastHeader_append (l a : ℕ) (xs : List Area) (x : Area) :
    lastHeader l a (xs ++ [x]) = a + total xs := by
  induction xs generalizing l a with
  | nil => simp [lastHeader]
  | cons y xs ih => simp [lastHeader, ih, Nat.add_assoc]

theorem front_append (l a : ℕ) (xs : List Area) (x : Area) :
    front l a (xs ++ [x]) = front l a xs ++ [x.node (lastHeader l a xs) (a + total xs)] := by
  induction xs generalizing l a with
  | nil => simp [front, lastHeader]
  | cons y xs ih => simp [front, lastHeader, ih, Nat.add_assoc]

/-- The header after a stretch of areas changes its `left` alone when the areas do. -/
theorem follow_left (l l' a : ℕ) (hl : l % 2 = 0) (xs : List Area) :
    { follow l a xs with left := l' + (follow l a xs).left % 2 } = follow l' a xs := by
  cases xs with
  | nil => simp [follow, hl]
  | cons x xs =>
    cases hx : x.free
    · simp [follow, Area.node, hx, hl]
    · simp [follow, Area.node, hx]
      omega

theorem follow_addr (l a : ℕ) (xs : List Area) : (follow l a xs).addr = a := by
  cases xs <;> rfl

theorem exists_of_mem_picks {b : Bool} {f : ℕ × ℕ} : ∀ {a : ℕ} {xs : List Area},
    f ∈ picks b a xs → ∃ pre post, xs = pre ++ ⟨f.2, b⟩ :: post ∧ f.1 = a + total pre
  | a, x :: xs, h => by
      have key : f ∈ picks b (a + x.size) xs →
          ∃ pre post, x :: xs = pre ++ ⟨f.2, b⟩ :: post ∧ f.1 = a + total pre := fun h => by
        obtain ⟨pre, post, rfl, hf⟩ := exists_of_mem_picks h
        exact ⟨x :: pre, post, rfl, by rw [hf, total_cons, Nat.add_assoc]⟩
      by_cases hx : x.free = b
      · simp only [picks, hx, if_true, List.mem_cons] at h
        rcases h with rfl | h
        · exact ⟨[], xs, by simp [← hx], rfl⟩
        · exact key h
      · exact key (by simpa [picks, hx] using h)

/-- The headers of a chain lie side by side. -/
theorem chain_bounds {n : Node} : ∀ {l a : ℕ} {xs : List Area}, n ∈ chain l a xs →
    a ≤ n.addr ∧ n.addr + n.span ≤ a + total xs + 16
  | _, a, [], h => by
      obtain rfl := List.mem_singleton.1 h
      simp
  | _, a, x :: xs, h => by
      rcases List.mem_cons.1 h with rfl | h
      · simp only [Area.node, total_cons]
        omega
      · have := chain_bounds h
        rw [total_cons]
        omega

/-- Other areas between the same neighbours. -/
theorem Alternating.refill {pre mid mid' post : List Area} (h : Alternating (pre ++ (mid ++ post)))
    (hm : Alternating mid') (hne : mid' ≠ [])
    (hfirst : ∀ x ∈ mid'.head?, x.free → ∀ y ∈ pre.getLast?, ¬y.free)
    (hlast : ∀ x ∈ mid'.getLast?, x.free → ∀ y ∈ post.head?, ¬y.free) :
    Alternating (pre ++ (mid' ++ post)) := by
  obtain ⟨hpre, hrest, -⟩ := List.isChain_append.1 h
  obtain ⟨-, hpost, -⟩ := List.isChain_append.1 hrest
  refine List.isChain_append.2 ⟨hpre, List.isChain_append.2 ⟨hm, hpost, ?_⟩, ?_⟩
  · rintro x hx y hy ⟨hxf, hyf⟩
    exact hlast x hx hxf y hy hyf
  · rintro y hy x hx ⟨hyf, hxf⟩
    obtain ⟨z, zs, rfl⟩ := List.exists_cons_of_ne_nil hne
    exact hfirst x hx hxf y hy hyf

/-- The area before a free one is in use. -/
theorem Alternating.before {pre post : List Area} {x : Area} (h : Alternating (pre ++ x :: post))
    (hx : x.free) : ∀ y ∈ pre.getLast?, ¬y.free := fun y hy hyf =>
  (List.isChain_append.1 h).2.2 y hy x (by simp) ⟨hyf, hx⟩

/-- The area behind a free one is in use. -/
theorem Alternating.behind {pre post : List Area} {x : Area} (h : Alternating (pre ++ x :: post))
    (hx : x.free) : ∀ y ∈ post.head?, ¬y.free := fun y hy hyf =>
  (List.isChain_cons.1 (List.isChain_append.1 h).2.1).1 y hy ⟨hx, hyf⟩

end Chains

/-- The heap around a stretch of areas. -/
structure Hole where
  before : List Region
  base : ℕ
  sentinel : ℕ
  pre : List Area
  post : List Area
  after : List Region

namespace Hole

/-- The region of the hole with the areas `mid` in it. -/
def region (h : Hole) (mid : List Area) : Region := ⟨h.base, h.sentinel, h.pre ++ (mid ++ h.post)⟩

/-- The heap with the areas `mid` in the hole. -/
def fill (h : Hole) (mid : List Area) : List Region := h.before ++ h.region mid :: h.after

/-- Where the hole is. -/
def addr (h : Hole) : ℕ := h.base + h.sentinel + total h.pre

/-- The header before the hole. -/
def left (h : Hole) : ℕ := lastHeader h.base (h.base + h.sentinel) h.pre

/-- The headers outside a hole that ends at `e`, except the one at `e`. -/
def others (h : Hole) (e : ℕ) : List Node :=
  ⟨h.base, h.sentinel, 0, h.sentinel⟩ :: (front h.base (h.base + h.sentinel) h.pre ++
    (behind e h.post ++ nodesOf (h.before ++ h.after)))

/-- The free areas, or those in use, outside a hole that ends at `e`. -/
def otherAreas (h : Hole) (b : Bool) (e : ℕ) : List (ℕ × ℕ) :=
  picks b (h.base + h.sentinel) h.pre ++ (picks b e h.post ++ areasOf b (h.before ++ h.after))

theorem nodes_fill (h : Hole) (mid : List Area) :
    (nodesOf (h.fill mid)).Perm (front h.left h.addr mid ++
      follow (lastHeader h.left h.addr mid) (h.addr + total mid) h.post ::
        h.others (h.addr + total mid)) := by
  have hregion : (h.region mid).nodes = ⟨h.base, h.sentinel, 0, h.sentinel⟩ ::
      (front h.base (h.base + h.sentinel) h.pre ++ (front h.left h.addr mid ++
        follow (lastHeader h.left h.addr mid) (h.addr + total mid) h.post ::
          behind (h.addr + total mid) h.post)) := by
    rw [Region.nodes, region, chain_append, chain_append, chain_eq]
    rfl
  have hswap : (nodesOf (h.fill mid)).Perm
      ((h.region mid).nodes ++ nodesOf (h.before ++ h.after)) := by
    simp only [nodesOf, fill, List.flatMap_append, List.flatMap_cons]
    rw [← List.append_assoc, ← List.append_assoc]
    exact List.perm_append_comm.append_right _
  refine hswap.trans ?_
  rw [hregion, others]
  generalize front h.left h.addr mid = M
  generalize front h.base (h.base + h.sentinel) h.pre = P
  generalize nodesOf (h.before ++ h.after) = O
  generalize behind (h.addr + total mid) h.post = B
  generalize follow (lastHeader h.left h.addr mid) (h.addr + total mid) h.post = y
  rw [List.perm_iff_count]
  intro n
  simp only [List.cons_append, List.append_assoc, List.count_cons, List.count_append]
  omega

theorem areas_fill (h : Hole) (b : Bool) (mid : List Area) :
    (areasOf b (h.fill mid)).Perm (picks b h.addr mid ++ h.otherAreas b (h.addr + total mid)) := by
  simp only [areasOf, fill, region, otherAreas, List.flatMap_append, List.flatMap_cons,
    picks_append, addr]
  rw [List.perm_iff_count]
  intro f
  simp only [List.count_append]
  omega

theorem mem_fill {h : Hole} {b : Bool} {mid : List Area} {f : ℕ × ℕ} :
    f ∈ areasOf b (h.fill mid) ↔
      f ∈ picks b h.addr mid ∨ f ∈ h.otherAreas b (h.addr + total mid) := by
  rw [(h.areas_fill b mid).mem_iff, List.mem_append]

theorem len_region {h : Hole} {mid mid' : List Area} (ht : total mid' = total mid) :
    (h.region mid').len = (h.region mid).len := by
  simp [Region.len, region, ht]

theorem range_fill {h : Hole} {mid mid' : List Area} (ht : total mid' = total mid) :
    (h.fill mid').map Region.range = (h.fill mid).map Region.range := by
  simp only [fill, List.map_append, List.map_cons, Region.range, len_region ht]
  rfl

theorem exists_of_mem_areasOf {R : List Region} {b : Bool} {f : ℕ × ℕ} (hm : f ∈ areasOf b R) :
    ∃ h : Hole, R = h.fill [⟨f.2, b⟩] ∧ h.addr = f.1 := by
  obtain ⟨r, hr, hrm⟩ := List.mem_flatMap.1 hm
  obtain ⟨R₁, R₂, rfl⟩ := List.append_of_mem hr
  obtain ⟨pre, post, hareas, hf⟩ := exists_of_mem_picks hrm
  refine ⟨⟨R₁, r.base, r.sentinel, pre, post, R₂⟩, ?_, hf.symm⟩
  simp [fill, region, ← hareas]

end Hole

section Refill

variable {h : Hole} {mid mid' : List Area} {s s' : Heap}

/-- The headers of the hole and of what follows it come first. -/
theorem Inv.core_fill (hinv : Inv (h.fill mid) s) :
    Core (front h.left h.addr mid ++
      follow (lastHeader h.left h.addr mid) (h.addr + total mid) h.post ::
        h.others (h.addr + total mid))
      (picks true h.addr mid ++ h.otherAreas true (h.addr + total mid)) s :=
  hinv.core.perm (h.nodes_fill mid) (h.areas_fill true mid)

/-- **A call that changes one stretch of areas.** -/
theorem Inv.refill (hinv : Inv (h.fill mid) s) (ht : total mid' = total mid)
    (hok : ∀ x ∈ mid', x.Ok) (halt : Alternating (h.pre ++ (mid' ++ h.post)))
    (hcore : Core (front h.left h.addr mid' ++
      follow (lastHeader h.left h.addr mid') (h.addr + total mid) h.post ::
        h.others (h.addr + total mid))
      (picks true h.addr mid' ++ h.otherAreas true (h.addr + total mid)) s')
    (ho : s'.outer = s.outer)
    (hkeep : ∀ f ∈ picks false h.addr mid, f.1 + 16 ∈ s.live → f ∈ picks false h.addr mid') :
    Inv (h.fill mid') s' where
  ok r hr := by
    simp only [Hole.fill, List.mem_append, List.mem_cons] at hr
    have hold := hinv.ok (h.region mid) (by simp [Hole.fill])
    rcases hr with hr | rfl | hr
    · exact hinv.ok r (by simp [Hole.fill, hr])
    · refine ⟨hold.pos, hold.base, Hole.len_region ht ▸ hold.len, ?_, hold.sentinel,
        fun x hx => ?_, halt⟩
      · have := hold.top
        rw [Hole.len_region ht]
        exact this
      · simp only [Hole.region, List.mem_append] at hx
        rcases hx with hx | hx | hx
        · exact hold.areas x (by simp [Hole.region, hx])
        · exact hok x hx
        · exact hold.areas x (by simp [Hole.region, hx])
    · exact hinv.ok r (by simp [Hole.fill, hr])
  apart := by
    rw [Hole.range_fill ht]
    exact hinv.apart
  core := by
    rw [← ht] at hcore
    exact hcore.perm (h.nodes_fill mid').symm (h.areas_fill true mid').symm
  held := by rw [Heap.held_of_outer ho, hinv.held, Hole.range_fill ht]
  size := by
    rw [Heap.size_of_outer ho, hinv.size]
    simp only [Hole.fill, List.map_append, List.map_cons, Hole.len_region ht]
  live := by
    rw [Heap.live_of_outer ho]
    refine ⟨hinv.live.1, fun p hp => ?_⟩
    obtain ⟨f, hf, rfl⟩ := hinv.live.2 p hp
    refine ⟨f, Hole.mem_fill.2 ?_, rfl⟩
    rcases Hole.mem_fill.1 hf with hf | hf
    · exact .inl (hkeep f hf hp)
    · exact .inr (ht ▸ hf)

end Refill

section Facts

theorem total_mod {xs : List Area} (h : ∀ x ∈ xs, x.Ok) : total xs % 8 = 0 := by
  induction xs with
  | nil => rfl
  | cons x xs ih =>
    have hx := (h x List.mem_cons_self).1
    have := ih fun y hy => h y (List.mem_cons_of_mem _ hy)
    rw [total_cons]
    omega

/-- The last header of some areas is aligned and lies before their end. -/
theorem lastHeader_facts {xs : List Area} (h : ∀ x ∈ xs, x.Ok) : ∀ {l a : ℕ}, l % 8 = 0 → 0 < l →
    l < a → a % 8 = 0 →
    lastHeader l a xs % 8 = 0 ∧ 0 < lastHeader l a xs ∧ lastHeader l a xs < a + total xs := by
  induction xs with
  | nil => exact fun hl hl0 hla _ => ⟨hl, hl0, by simpa [lastHeader] using hla⟩
  | cons x xs ih =>
    intro l a _ hl0 hla ha
    obtain ⟨hx8, hx24, -⟩ := h x List.mem_cons_self
    have := ih (fun y hy => h y (List.mem_cons_of_mem _ hy)) ha (by omega)
      (show a < a + x.size by omega) (by omega)
    simpa [lastHeader, Nat.add_assoc] using this

/-- The addresses at a hole. -/
structure Hole.Placed (h : Hole) (mid : List Area) : Prop where
  left_mod : h.left % 8 = 0
  left_pos : 0 < h.left
  left_lt : h.left < h.addr
  addr_mod : h.addr % 8 = 0
  top : h.addr + total mid + 16 < 2 ^ 64
  areas : ∀ x ∈ mid, x.Ok

variable {R : List Region} {h : Hole} {mid : List Area} {s s' : Heap}

theorem Inv.region_ok (hinv : Inv (h.fill mid) s) : (h.region mid).Ok :=
  hinv.ok _ (by simp [Hole.fill])

theorem Inv.placed (hinv : Inv (h.fill mid) s) : h.Placed mid := by
  have hr := hinv.region_ok
  have hareas := hr.areas
  simp only [Hole.region, List.mem_append] at hareas
  have hpre : ∀ x ∈ h.pre, x.Ok := fun x hx => hareas x (.inl hx)
  obtain ⟨hb, hpos, hs⟩ := (⟨hr.base, hr.pos, hr.sentinel⟩ :
    h.base % 4096 = 0 ∧ 0 < h.base ∧ h.sentinel % 8 = 0 ∧ 16 ≤ h.sentinel ∧ h.sentinel < 48)
  have htop : h.base + (h.sentinel + total (h.pre ++ (mid ++ h.post)) + 16) < 2 ^ 64 := hr.top
  have hmod := total_mod hpre
  have hlast := lastHeader_facts hpre (l := h.base) (a := h.base + h.sentinel) (by omega) hpos
    (by omega) (by omega)
  rw [total_append, total_append] at htop
  refine ⟨hlast.1, hlast.2.1, hlast.2.2, ?_, ?_, fun x hx => hareas x (.inr (.inl hx))⟩
  · rw [Hole.addr]
    omega
  · rw [Hole.addr]
    omega

theorem Core.congr {N : List Node} {F : List (ℕ × ℕ)} (hc : Core N F s) (hm : s'.mem = s.mem)
    (hl : s'.freeLists = s.freeLists) (hb : s'.freeListBits = s.freeListBits)
    (hr : s'.remaining = s.remaining) : Core N F s' where
  header n hn := by
    rw [hm]
    exact hc.header n hn
  apart := hc.apart
  room := hc.room
  inside := hc.inside
  nodup := hc.nodup
  lists := by
    obtain ⟨L, hL⟩ := hc.lists
    exact ⟨L, fun i => hl ▸ hL.head i, fun i => hm ▸ hL.linked i, hL.nodup, hL.mem_iff, hL.bucket,
      fun i => hb ▸ hL.bit i, hr ▸ hL.remaining⟩

/-- The lock and the answers of `page_alloc` are not part of the invariant. -/
theorem Inv.lock (hinv : Inv R s) (b : Bool) (as : List (Option ℕ)) :
    Inv R { s with locked := b, answers := as } :=
  ⟨hinv.ok, hinv.apart, hinv.core.congr rfl rfl rfl rfl, hinv.held, hinv.size, hinv.live⟩

/-- A free area is a header that has room for its links. -/
theorem inside_of_ok (hok : ∀ r ∈ R, r.Ok) {f : ℕ × ℕ} (hf : f ∈ areasOf true R) :
    ∃ n ∈ nodesOf R, n.addr = f.1 ∧ 32 ≤ n.span ∧ f.2 ≤ n.span := by
  obtain ⟨h, rfl, ha⟩ := Hole.exists_of_mem_areasOf hf
  refine ⟨Area.node h.left h.addr ⟨f.2, true⟩, (h.nodes_fill _).mem_iff.2 (by simp [front]), ha,
    ((hok (h.region [⟨f.2, true⟩]) (by simp [Hole.fill])).areas ⟨f.2, true⟩
      (by simp [Hole.region])).2.2 rfl, le_rfl⟩

/-- An area is a header of its size, tagged when it is free. -/
theorem Inv.node_of_area (hinv : Inv R s) {b : Bool} {f : ℕ × ℕ} (hf : f ∈ areasOf b R) :
    ∃ n ∈ nodesOf R, n.addr = f.1 ∧ n.span = f.2 ∧ n.size = f.2 ∧ n.left % 2 = b.toNat := by
  obtain ⟨h, rfl, ha⟩ := Hole.exists_of_mem_areasOf hf
  have hp := hinv.placed
  refine ⟨Area.node h.left h.addr ⟨f.2, b⟩, (h.nodes_fill _).mem_iff.2 (by simp [front]), ha, rfl,
    rfl, ?_⟩
  have := hp.left_mod
  cases b <;> simp [Area.node] <;> omega

/-- An area is not both free and in use. -/
theorem Inv.free_not_used (hinv : Inv R s) {a z z' : ℕ} (hf : (a, z) ∈ areasOf true R) :
    (a, z') ∉ areasOf false R := by
  intro hf'
  obtain ⟨n, hn, hna, -, -, hnl⟩ := hinv.node_of_area hf
  obtain ⟨m, hm, hma, -, -, hml⟩ := hinv.node_of_area hf'
  have h₁ := (hinv.core.header n hn).1
  have h₂ := (hinv.core.header m hm).1
  rw [hna] at h₁
  rw [hma, h₁] at h₂
  rw [h₂, hml] at hnl
  exact absurd hnl (by decide)

/-- An area in use is on no list. -/
theorem Inv.used_not_free (hinv : Inv R s) {a z : ℕ} (hf : (a, z) ∈ areasOf false R) :
    a ∉ (areasOf true R).map Prod.fst := by
  intro hm
  obtain ⟨g, hg, rfl⟩ := List.mem_map.1 hm
  exact hinv.free_not_used hg hf

/-- No area in use starts inside another area. -/
theorem Inv.not_inside (hinv : Inv R s) {b b' : Bool} {f g : ℕ × ℕ} (hf : f ∈ areasOf b R)
    (hg : g ∈ areasOf b' R) : g.1 ≤ f.1 ∨ f.1 + f.2 ≤ g.1 := by
  obtain ⟨n, hn, hna, hns, -⟩ := hinv.node_of_area hf
  obtain ⟨m, hm, hma, hms, -⟩ := hinv.node_of_area hg
  rcases hinv.core.eq_or_apart hn hm with rfl | hlt | hlt <;> omega

/-- The headers of a region lie in its pages. -/
theorem Region.node_bounds {r : Region} {n : Node} (hn : n ∈ r.nodes) :
    r.base ≤ n.addr ∧ n.addr + n.span ≤ r.base + r.len := by
  rcases List.mem_cons.1 hn with rfl | hn
  · simp only [Region.len]
    omega
  · have := chain_bounds hn
    simp only [Region.len]
    omega

/-- Regions that are apart add up to less than the address space. -/
theorem sum_len_lt (hok : ∀ r ∈ R, r.Ok) (hapart : (R.map Region.range).Pairwise Ranges.Apart) :
    (R.map Region.len).sum < 2 ^ 64 := by
  have hle : ((R.map Region.range).map Prod.snd).sum ≤ 2 ^ 64 - 1 :=
    Ranges.sum_le_of_apart hapart fun q hq => by
      obtain ⟨r, hr, rfl⟩ := List.mem_map.1 hq
      have h₁ := (hok r hr).pos
      have h₂ := (hok r hr).top
      simp only [Region.range]
      omega
  have heq : (R.map Region.range).map Prod.snd = R.map Region.len := by
    rw [List.map_map]
    rfl
  rw [heq] at hle
  omega

end Facts

end Cmpct
end LittleKernel
