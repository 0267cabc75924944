/-
# `cmpct_trim`

`cmpct_trim` of `lib/heap/cmpctmalloc/cmpctmalloc.c` gives whole pages at the end or
at the start of a region back to the system.  At the end it moves the right sentinel.
At the start it makes a new left sentinel; what is left of the first area is a smaller
free area, or part of the sentinel when it cannot hold a `free_t`.

The start of a region whose left sentinel is larger than a header is cut in the wrong
place, as the code takes the sentinel for a header.  `Snug` says that no area that the
loop looks at comes behind such a sentinel, and the loop keeps it.
-/

import LittleKernel.Cmpctmalloc.Calls

namespace LittleKernel
namespace Cmpct

open Word

/-- The first area of a region with an enlarged sentinel is in use, or the last too, or
on no list that `cmpct_trim` walks. -/
def Region.Snug (r : Region) : Prop :=
  16 < r.sentinel → ∀ x xs, r.areas = x :: xs → xs ≠ [] → x.free →
    ∀ b ∈ trimBuckets, areaBucket x.size ≠ some b

/-- What the work on the free area at `a` leaves: the invariant, and every other area. -/
structure Trimmed (R : List Region) (s : Heap) (a : ℕ) (R' : List Region) (s' : Heap) : Prop where
  inv : Inv R' s'
  live : s'.live = s.live
  free : ∀ f ∈ areasOf true R, f.1 ≠ a → f ∈ areasOf true R'
  snug : (∀ r ∈ R, r.Snug) → ∀ r ∈ R', r.Snug

section Recut

variable {A B : List Region} {r r' : Region} {s s₁ : Heap} {p n : ℕ} {N X : List Node}
  {F : List (ℕ × ℕ)}

/-- The blocks of the heap when one region changes and its blocks do not. -/
theorem areasOf_recut (hused : picks false (r'.base + r'.sentinel) r'.areas =
    picks false (r.base + r.sentinel) r.areas) :
    areasOf false (B ++ r' :: A) = areasOf false (B ++ r :: A) := by
  simp only [areasOf, List.flatMap_append, List.flatMap_cons, hused]

/-- **A region loses pages at one end.**  The headers `X` in these pages are given up. -/
theorem Inv.recut (hinv : Inv (B ++ r :: A) s) (hr : r'.Ok)
    (hin : r.base ≤ r'.base ∧ r'.base + r'.len ≤ r.base + r.len)
    (hp : r.base ≤ p ∧ p + n ≤ r.base + r.len) (hn : n % 4096 = 0) (hlen : r'.len + n = r.len)
    (hcut : Ranges.cut p n r.range = [r'.range])
    (hc : Core N F s₁) (hN : N.Perm (X ++ nodesOf (B ++ r' :: A)))
    (hF : F.Perm (areasOf true (B ++ r' :: A))) (ho : s₁.outer = s.outer)
    (hused : picks false (r'.base + r'.sentinel) r'.areas =
      picks false (r.base + r.sentinel) r.areas) :
    Inv (B ++ r' :: A)
      { pageFree p (n / 4096) s₁ with size := sub64 (pageFree p (n / 4096) s₁).size n } := by
  have hok : ∀ q ∈ B ++ r' :: A, q.Ok := by
    intro q hq
    simp only [List.mem_append, List.mem_cons] at hq
    rcases hq with hq | rfl | hq
    · exact hinv.ok q (by simp [hq])
    · exact hr
    · exact hinv.ok q (by simp [hq])
  refine ⟨hok, ?_, ?_, ?_, ?_, ?_⟩
  · have hapart := hinv.apart
    simp only [List.map_append, List.map_cons, List.pairwise_append, List.pairwise_cons,
      List.mem_cons, forall_eq_or_imp] at hapart ⊢
    obtain ⟨hB, ⟨hrA, hA⟩, hBr⟩ := hapart
    refine ⟨hB, ⟨fun q hq => ?_, hA⟩, fun q hq => ⟨?_, (hBr q hq).2⟩⟩
    · have := hrA q hq
      simp only [Ranges.Apart, Region.range] at this ⊢
      omega
    · have := (hBr q hq).1
      simp only [Ranges.Apart, Region.range] at this ⊢
      omega
  · exact ((hc.perm hN hF).restrict (List.sublist_append_right _ _)
      fun f hf => inside_of_ok hok hf).congr rfl rfl rfl rfl
  · have hapart := hinv.apart
    have hheld := hinv.held
    simp only [List.map_append, List.map_cons] at hapart hheld ⊢
    simp only [pageFree, Heap.held_of_outer ho, hheld, Nat.div_mul_cancel (Nat.dvd_of_mod_eq_zero hn)]
    rw [Ranges.flatMap_cut hapart hp.1 hp.2, hcut]
    simp
  · have hsum := sum_len_lt hinv.ok hinv.apart
    have hsize := hinv.size
    simp only [List.map_append, List.map_cons, List.sum_append, List.sum_cons] at hsum hsize ⊢
    simp only [pageFree, Heap.size_of_outer ho, hsize]
    rw [sub64_of_le (by omega) (by omega)]
    omega
  · have hlive := Heap.live_of_outer ho
    simp only [pageFree, hlive, areasOf_recut hused]
    exact hinv.live

end Recut

section End

variable {h : Hole} {s s' : Heap} {z b : ℕ}

/-- The right sentinel of the region, when the area is the last one. -/
theorem Hole.end_eq (h : Hole) (hpost : h.post = []) (z : ℕ) :
    h.base + (h.region [⟨z, true⟩]).len = h.addr + z + 16 := by
  simp only [Region.len, Hole.region, Hole.addr, hpost, total_append, total_cons, total_nil]
  omega

/-- The region with its last area, a free one, cut to `k` bytes, and the right sentinel behind
them. -/
theorem Inv.shrink (hinv : Inv (h.fill [⟨z, true⟩]) s) (hpost : h.post = []) {k : ℕ}
    (hk32 : 32 ≤ k) (hkz : k < z) (hkmod : (h.addr + k + 16) % 4096 = 0) {s₁ : Heap} {x : Node}
    (hc : Core (⟨h.addr, k, h.left + 1, k⟩ :: ⟨h.addr + k, 16, h.addr, 0⟩ :: x ::
      ⟨h.addr + z, 16, h.addr, 0⟩ :: h.others (h.addr + z))
      ((h.addr, k) :: h.otherAreas true (h.addr + z)) s₁) (ho : s₁.outer = s.outer) :
    ∃ R', Trimmed (h.fill [⟨z, true⟩]) s h.addr R'
      { pageFree (h.addr + k + 16) ((z - k) / 4096) s₁ with
        size := sub64 (pageFree (h.addr + k + 16) ((z - k) / 4096) s₁).size (z - k) } ∧
      areasOf false R' = areasOf false (h.fill [⟨z, true⟩]) := by
  have hr := hinv.region_ok
  have hl8 := hinv.placed.left_mod
  have ha8 := hinv.placed.addr_mod
  obtain ⟨hz8, -⟩ := hinv.placed.areas ⟨z, true⟩ (by simp)
  simp only at hz8
  have hend := h.end_eq hpost z
  have hlen := hr.len
  have hbase : h.base % 4096 = 0 := hr.base
  have htop : h.base + (h.region [⟨z, true⟩]).len < 2 ^ 64 := hr.top
  have hothers : h.others (h.addr + z) = h.others (h.addr + k) := by simp [Hole.others, hpost, behind]
  have hareas : ∀ b, h.otherAreas b (h.addr + z) = h.otherAreas b (h.addr + k) := by
    simp [Hole.otherAreas, hpost, picks]
  have hlen' : (h.region [⟨k, true⟩]).len + (z - k) = (h.region [⟨z, true⟩]).len := by
    simp only [Region.len, Hole.region, total_append, total_cons, total_nil]
    omega
  have hok : (h.region [⟨k, true⟩]).Ok := by
    refine ⟨hr.pos, hr.base, by omega, ?_, hr.sentinel, fun x hx => ?_, ?_⟩
    · change h.base + (h.region [⟨k, true⟩]).len < 2 ^ 64
      omega
    · simp only [Hole.region, List.mem_append, List.mem_singleton] at hx
      rcases hx with hx | rfl | hx
      · exact hr.areas x (by simp [Hole.region, hx])
      · exact ⟨by simp only; omega, by simp only; omega, fun _ => hk32⟩
      · exact hr.areas x (by simp [Hole.region, hx])
    · exact hr.alternating.refill (by simp [Alternating]) (by simp)
        (fun _ _ _ => hr.alternating.before rfl) (by simp [hpost])
  have hused : picks false (h.base + h.sentinel) (h.region [⟨k, true⟩]).areas =
      picks false (h.base + h.sentinel) (h.region [⟨z, true⟩]).areas := by
    simp [Hole.region, hpost, picks_append, picks]
  have hcut : Ranges.cut (h.addr + k + 16) (z - k) (h.region [⟨z, true⟩]).range =
      [(h.region [⟨k, true⟩]).range] := by
    have := Ranges.cut_back (p := h.base) (n := (h.region [⟨z, true⟩]).len)
      (k := (h.region [⟨k, true⟩]).len) (by omega) (by simp [Region.len])
    rw [show h.base + (h.region [⟨k, true⟩]).len = h.addr + k + 16 by omega,
      show (h.region [⟨z, true⟩]).len - (h.region [⟨k, true⟩]).len = z - k by omega] at this
    exact this
  have hinv' := Inv.recut (p := h.addr + k + 16) (n := z - k) hinv hok
    (show h.base ≤ h.base ∧ h.base + _ ≤ h.base + _ by omega)
    (show h.base ≤ _ ∧ _ ≤ h.base + _ by simp only [Hole.addr] at *; omega) (by omega) hlen' hcut hc
    (X := [x, ⟨h.addr + z, 16, h.addr, 0⟩]) ?_ ?_ ho hused
  · refine ⟨_, ⟨hinv', (Heap.live_of_outer ho : s₁.live = s.live), ?_, ?_⟩, areasOf_recut hused⟩
    · intro f hf hne
      refine Hole.mem_fill.2 (.inr ?_)
      rcases Hole.mem_fill.1 hf with hf | hf
      · obtain rfl : f = (h.addr, z) := by simpa [picks] using hf
        exact absurd rfl hne
      · simpa [hareas] using hf
    · intro hsnug q hq
      simp only [List.mem_append, List.mem_cons] at hq
      rcases hq with hq | rfl | hq
      · exact hsnug q (by simp [Hole.fill, hq])
      · intro h16 x xs hxs hne hx
        have hr' := hsnug (h.region [⟨z, true⟩]) (by simp [Hole.fill]) h16 x
        cases hpre : h.pre with
        | nil => simp_all [Hole.region]
        | cons y ys =>
          refine hr' (ys ++ [⟨z, true⟩]) ?_ (by simp) hx
          simp_all [Hole.region]
      · exact hsnug q (by simp [Hole.fill, hq])
  · refine .trans ?_ ((h.nodes_fill [⟨k, true⟩]).append_left _).symm
    simp only [hpost, follow, front, lastHeader, total_cons, total_nil, hothers, Area.node]
    exact (@List.perm_append_comm _ [_, _] [_, _]).append_right _
  · simpa [picks, hareas, Hole.fill] using (h.areas_fill true [⟨k, true⟩]).symm

/-- **The end of a region is given back.**  The last area is taken off its list, cut before the
first page boundary that leaves it room for a `free_t`, and put back as what is left of it. -/
theorem Inv.trimEnd (hinv : Inv (h.fill [⟨z, true⟩]) s) (hb : areaBucket z = some b)
    (hpost : h.post = []) (hs : trimEnd b h.addr s = some s') :
    ∃ R', Trimmed (h.fill [⟨z, true⟩]) s h.addr R' s' ∧
      areasOf false R' = areasOf false (h.fill [⟨z, true⟩]) := by
  have hl8 := hinv.placed.left_mod
  have ha8 := hinv.placed.addr_mod
  obtain ⟨hz8, -, hz32⟩ := hinv.placed.areas ⟨z, true⟩ (by simp)
  have hz32 := hz32 rfl
  simp only at hz8 hz32
  have hend := h.end_eq hpost z
  have hlen := hinv.region_ok.len
  have hbase : h.base % 4096 = 0 := hinv.region_ok.base
  have htop : h.base + (h.region [⟨z, true⟩]).len < 2 ^ 64 := hinv.region_ok.top
  have h₀ : Core (⟨h.addr, z, h.left + 1, z⟩ :: ⟨h.addr + z, 16, h.addr, 0⟩ ::
      h.others (h.addr + z)) ((h.addr, z) :: h.otherAreas true (h.addr + z)) s := by
    simpa [hpost, follow, picks, Area.node] using hinv.core_one
  have hmem := (h₀.header _ List.mem_cons_self).2
  simp only at hmem
  have hold : roundup (h.addr + z) 4096 = h.addr + z + 16 := by
    rw [roundup, u64_of_lt (by omega)]
    omega
  obtain ⟨k, hnew, hk32, hkz, hkmod⟩ : ∃ k, roundup (h.addr + 16 + 32) 4096 = h.addr + k + 16 ∧
      32 ≤ k ∧ k ≤ z ∧ (h.addr + k + 16) % 4096 = 0 := by
    refine ⟨roundup (h.addr + 16 + 32) 4096 - h.addr - 16, ?_⟩
    rw [roundup, u64_of_lt (by omega)]
    omega
  have hfreed : sub64 (h.addr + z + 16) (h.addr + k + 16) = z - k := by
    rw [sub64_of_le (by omega) (by omega)]
    omega
  simp only [Cmpct.trimEnd, rightHeader, hmem, hold, hnew, hfreed] at hs
  split_ifs at hs with hzero
  · cases hs
    exact ⟨_, ⟨hinv, rfl, fun f hf _ => hf, id⟩, rfl⟩
  simp only [Option.bind_eq_bind, Option.bind_eq_some_iff] at hs
  obtain ⟨s₁, hs₁, s₂, hs₂, hs⟩ := hs
  obtain ⟨h₁, ho₁⟩ := h₀.unlink List.mem_cons_self rfl rfl hb hs₁
  have hF : h.addr ∉ (h.otherAreas true (h.addr + z)).map Prod.fst :=
    (List.nodup_cons.1 h₀.nodup).1
  have hsize : sub64 (s₁.mem (h.addr + 8)) (z - k) = k := by
    rw [(h₁.header _ List.mem_cons_self).2]
    simp only
    rw [sub64_of_le (by omega) (by omega)]
    omega
  have h₂ := h₁.split (A := []) (k := k) hF (by omega) (by simp only; omega)
  have h₃ := h₂.allocationHeader (A := [_]) (show h.addr + k = _ from rfl) 0 h.addr
  rw [untag_of_even (by omega)] at h₃
  have hleft := (h₃.header ⟨h.addr, k, h.left + 1, z⟩ (by simp)).1
  simp only [hsize] at hs₂ hleft
  rw [hleft, untag_succ (by omega)] at hs₂
  obtain ⟨h₄, ho₂⟩ := Core.push (A := []) h₃ hk32 le_rfl hF hs₂
  rw [tagAsFree_of_even (by omega)] at h₄
  have h₅ := Core.split (A := [_]) (k := 16) h₄
    (by
      have := h₁.not_mem_of_inside (c := h.addr + k) List.mem_cons_self (by simp only; omega)
        (by simp only; omega)
      simpa using ⟨by omega, by simpa using this⟩) le_rfl (by simp only; omega)
  exact Option.some.inj hs ▸ hinv.shrink hpost hk32 (by omega) hkmod h₅ (ho₂.trans ho₁)

end End

section Start

variable {h : Hole} {s s' : Heap} {z b : ℕ}

/-- The region with a new left sentinel of size `S`, `f` bytes further on, and the areas
`M` in front of those that stay. -/
theorem Inv.restart (hinv : Inv (h.fill [⟨z, true⟩]) s) (hpre : h.pre = [])
    (hsent : h.sentinel = 16) {f k S : ℕ} (hz : f + k = z) (hf : f % 4096 = 0) (hf0 : f ≠ 0)
    (hS : S % 8 = 0 ∧ 16 ≤ S ∧ S < 48) {M : List Area} (hmid : S + total M = 16 + k)
    (hok : ∀ x ∈ M, x.Ok) (hfree : picks false (h.base + f + S) M = [])
    (halt : Alternating (M ++ h.post)) (hsnug : S = 16 ∨ M = []) {s₁ : Heap} {x : Node}
    (hc : Core ((x :: ⟨h.base + f, S, 0, S⟩ :: front (h.base + f) (h.base + f + S) M) ++
      follow (lastHeader (h.base + f) (h.base + f + S) M) (h.addr + z) h.post ::
        h.others (h.addr + z))
      (picks true (h.base + f + S) M ++ h.otherAreas true (h.addr + z)) s₁)
    (ho : s₁.outer = s.outer) :
    ∃ R', Trimmed (h.fill [⟨z, true⟩]) s h.addr R'
      { pageFree h.base (f / 4096) s₁ with
        size := sub64 (pageFree h.base (f / 4096) s₁).size f } ∧
      areasOf false R' = areasOf false (h.fill [⟨z, true⟩]) := by
  have hr := hinv.region_ok
  have hbase : h.base % 4096 = 0 := hr.base
  have haddr : h.addr = h.base + 16 := by simp [Hole.addr, hpre, hsent]
  obtain ⟨h', hh'⟩ : ∃ h' : Hole, h' = { h with base := h.base + f, sentinel := S } := ⟨_, rfl⟩
  have haddr' : h'.addr = h.base + f + S := by simp [hh', Hole.addr, hpre]
  have hleft' : h'.left = h.base + f := by simp [hh', Hole.left, hpre, lastHeader]
  have hend : h'.addr + total M = h.addr + z := by omega
  have hlen : (h'.region M).len + f = (h.region [⟨z, true⟩]).len := by
    simp only [hh', Region.len, Hole.region, hpre, hsent, total_append, total_cons, total_nil]
    omega
  have hok' : (h'.region M).Ok := by
    have hpos : 0 < h.base := hr.pos
    have hlen₀ := hr.len
    have htop : h.base + (h.region [⟨z, true⟩]).len < 2 ^ 64 := hr.top
    refine ⟨?_, ?_, by omega, ?_, ?_, fun y hy => ?_, ?_⟩
    · simp only [hh', Hole.region]
      omega
    · simp only [hh', Hole.region]
      omega
    · rw [show (h'.region M).base = h.base + f by rw [hh']; rfl]
      omega
    · simpa [hh', Hole.region] using hS
    · have hy : y ∈ M ∨ y ∈ h.post := by simpa [hh', Hole.region, hpre] using hy
      rcases hy with hy | hy
      · exact hok y hy
      · exact hr.areas y (by simp [Hole.region, hy])
    · simpa [hh', Hole.region, hpre] using halt
  have hareas : ∀ b, h'.otherAreas b (h.addr + z) = h.otherAreas b (h.addr + z) := by
    simp [hh', Hole.otherAreas, hpre, picks]
  have hcut : Ranges.cut h.base f (h.region [⟨z, true⟩]).range = [(h'.region M).range] := by
    have := Ranges.cut_front (p := h.base) (n := (h.region [⟨z, true⟩]).len) (k := f) (by omega)
      (by simp only [Region.len, Hole.region, hsent]; simp; omega)
    rw [show (h.region [⟨z, true⟩]).len - f = (h'.region M).len by omega] at this
    rw [show (h'.region M).range = (h.base + f, (h'.region M).len) by rw [hh']; rfl]
    exact this
  have hfill : h'.fill M = h.before ++ h'.region M :: h.after := by rw [hh']; rfl
  have hused : picks false ((h'.region M).base + (h'.region M).sentinel) (h'.region M).areas =
      picks false ((h.region [⟨z, true⟩]).base + (h.region [⟨z, true⟩]).sentinel)
        (h.region [⟨z, true⟩]).areas := by
    have hnone : picks false (h.base + 16) [⟨z, true⟩] = [] := by simp [picks]
    simp only [hh', Hole.region, hpre, hsent, List.nil_append, picks_append, hnone, hfree,
      total_cons, total_nil]
    rw [show h.base + f + S + total M = h.base + 16 + (z + 0) by omega]
  have hinv' := Inv.recut (p := h.base) (n := f) hinv hok'
    (show h.base ≤ _ ∧ _ ≤ h.base + _ by
      rw [show (h'.region M).base = h.base + f by rw [hh']; rfl]
      omega) (show h.base ≤ h.base ∧ h.base + f ≤ h.base + _ by omega) hf hlen hcut hc
    (X := [x, ⟨h.base, 16, 0, 16⟩]) ?_ ?_ ho hused
  · refine ⟨_, ⟨hinv', (Heap.live_of_outer ho : s₁.live = s.live), ?_, ?_⟩, areasOf_recut hused⟩
    · intro g hg hne
      rw [← hfill]
      refine Hole.mem_fill.2 (.inr ?_)
      rcases Hole.mem_fill.1 hg with hg | hg
      · obtain rfl : g = (h.addr, z) := by simpa [picks] using hg
        exact absurd rfl hne
      · rw [hend, hareas]
        simpa using hg
    · intro hall q hq
      simp only [List.mem_append, List.mem_cons] at hq
      rcases hq with hq | rfl | hq
      · exact hall q (by simp [Hole.fill, hq])
      · rintro h16 y ys hys - hy
        rcases hsnug with rfl | rfl
        · simp [hh', Hole.region] at h16
        · have hpost : h.post = y :: ys := by simpa [hh', Hole.region, hpre] using hys
          have hal : Alternating ([] ++ ⟨z, true⟩ :: h.post) := by
            simpa [Hole.region, hpre] using hr.alternating
          exact absurd hy (hal.behind rfl y (by simp [hpost]))
      · exact hall q (by simp [Hole.fill, hq])
  · rw [← hfill]
    refine .trans ?_ ((h'.nodes_fill M).append_left _).symm
    rw [hend, haddr', hleft']
    have hothers : h.others (h.addr + z) = ⟨h.base, 16, 0, 16⟩ ::
        (behind (h.addr + z) h.post ++ nodesOf (h.before ++ h.after)) := by
      simp [Hole.others, hpre, hsent, front]
    have hothers' : h'.others (h.addr + z) = ⟨h.base + f, S, 0, S⟩ ::
        (behind (h.addr + z) h.post ++ nodesOf (h.before ++ h.after)) := by
      simp [hh', Hole.others, hpre, front]
    rw [hothers, hothers', show h'.post = h.post by rw [hh']]
    generalize behind (h.addr + z) h.post ++ nodesOf (h.before ++ h.after) = O
    rw [List.perm_iff_count]
    intro n
    simp only [List.cons_append, List.nil_append, List.count_cons, List.count_append]
    omega
  · rw [← hfill]
    refine .trans (.of_eq ?_) (h'.areas_fill true M).symm
    rw [hend, haddr', hareas]

/-- **The start of a region is given back**, its left sentinel being a header. -/
theorem Inv.trimStart (hinv : Inv (h.fill [⟨z, true⟩]) s) (hb : areaBucket z = some b)
    (hpre : h.pre = []) (hsent : h.sentinel = 16) (hs : trimStart b h.addr s = some s') :
    ∃ R', Trimmed (h.fill [⟨z, true⟩]) s h.addr R' s' ∧
      areasOf false R' = areasOf false (h.fill [⟨z, true⟩]) := by
  have hp := hinv.placed
  have hr := hinv.region_ok
  obtain ⟨hz8, -, hz32⟩ := hp.areas ⟨z, true⟩ (by simp)
  have hz32 := hz32 rfl
  simp only at hz8 hz32
  have haddr : h.addr = h.base + 16 := by simp [Hole.addr, hpre, hsent]
  have hleft : h.left = h.base := by simp [Hole.left, hpre, lastHeader]
  have hbase : h.base % 4096 = 0 := hr.base
  have htop := hp.top
  simp only [total_cons, total_nil] at htop
  have h₀ : Core (⟨h.addr, z, h.left + 1, z⟩ :: follow h.addr (h.addr + z) h.post ::
      h.others (h.addr + z)) ((h.addr, z) :: h.otherAreas true (h.addr + z)) s := hinv.core_one
  have hmem := (h₀.header _ List.mem_cons_self).2
  simp only at hmem
  obtain ⟨f, k, hf, hf4, hk⟩ : ∃ f k, f + k = z ∧ f % 4096 = 0 ∧ k < 4096 :=
    ⟨z / 4096 * 4096, z % 4096, by omega, by omega, by omega⟩
  have hold : rounddown h.addr 4096 = h.base := by
    rw [rounddown]
    omega
  have hnew : rounddown (h.addr + z - 16) 4096 = h.base + f := by
    rw [rounddown]
    omega
  have hfreed : sub64 (h.base + f) h.base = f := by
    rw [sub64_of_le (by omega) (by omega)]
    omega
  simp only [Cmpct.trimStart, rightHeader, hmem, hold, hnew, hfreed] at hs
  by_cases hzero : f = 0
  · rw [if_pos hzero] at hs
    cases hs
    exact ⟨_, ⟨hinv, rfl, fun f hf _ => hf, id⟩, rfl⟩
  simp only [if_neg hzero, Option.bind_eq_bind, Option.bind_eq_some_iff] at hs
  obtain ⟨s₁, hs₁, hs⟩ := hs
  obtain ⟨h₁, ho₁⟩ := h₀.unlink List.mem_cons_self rfl rfl hb hs₁
  have hF : h.addr ∉ (h.otherAreas true (h.addr + z)).map Prod.fst :=
    (List.nodup_cons.1 h₀.nodup).1
  have hsize : sub64 (s₁.mem (h.addr + 8)) f = k := by
    rw [(h₁.header _ List.mem_cons_self).2]
    simp only
    rw [sub64_of_le (by omega) (by omega)]
    omega
  obtain ⟨g, rfl⟩ : ∃ g, f = g + 16 := ⟨f - 16, by omega⟩
  have hstart : h.addr + g = h.base + (g + 16) := by omega
  have hrest : z - g = 16 + k := by omega
  have h₂ := h₁.split (A := []) (k := g) hF (by omega) (by simp only; omega)
  simp only [hstart, hrest] at h₂
  simp only [hsize] at hs
  have hal : Alternating ([] ++ ⟨z, true⟩ :: h.post) := by
    simpa [Hole.region, hpre] using hr.alternating
  by_cases hsmall : k < 32
  · -- the rest cannot hold a `free_t` and becomes part of the sentinel
    simp only [if_pos hsmall, if_true, Option.bind_some, Option.some.injEq] at hs
    subst hs
    have h₃ := h₂.allocationHeader (A := [_]) (show h.base + (g + 16) + 0 = _ from rfl) (16 + k) 0
    have h₄ := Core.fixLeft (A := [_, _]) h₃ (by omega)
      (show (h.base + (g + 16)) % 2 = 0 by omega)
    exact hinv.restart (S := 16 + k) hpre hsent hf hf4 hzero (by omega) (M := []) (by simp)
      (by simp) rfl (List.isChain_append.1 hal).2.1.tail (.inr rfl) h₄ ho₁
  · simp only [if_neg hsmall, if_neg (show k ≠ 0 by omega), Option.bind_eq_some_iff,
      Option.some.injEq] at hs
    obtain ⟨s₂, hs₂, s₃, rfl, rfl⟩ := hs
    have h₃ := h₂.allocationHeader (A := [_]) (show h.base + (g + 16) + 0 = _ from rfl) 16 0
    have hF' : h.base + (g + 16) ∉ (h.otherAreas true (h.addr + z)).map Prod.fst :=
      h₁.not_mem_of_inside List.mem_cons_self (by simp only; omega) (by simp only; omega)
    have h₄ := Core.split (A := [_]) (k := 16) h₃ hF' le_rfl (by simp only; omega)
    simp only [Nat.add_sub_cancel_left] at h₄
    obtain ⟨h₅, ho₂⟩ := Core.push (A := [_, _]) h₄ (by simp only; omega) le_rfl
      (h₁.not_mem_of_inside List.mem_cons_self (by simp only; omega) (by simp only; omega)) hs₂
    rw [tagAsFree_of_even (by omega)] at h₅
    have h₆ := Core.fixLeft (A := [_, _, _]) h₅ (by omega)
      (show (h.base + (g + 16) + 16) % 2 = 0 by omega)
    refine hinv.restart hpre hsent hf hf4 hzero (by omega) (M := [⟨k, true⟩]) (by simp) ?_
      (by simp [picks]) ?_ (.inl rfl) h₆ (ho₂.trans ho₁)
    · simp only [List.mem_singleton, forall_eq, Area.Ok]
      omega
    · exact List.isChain_cons.2 ⟨(List.isChain_cons.1 (List.isChain_append.1 hal).2.1).1,
        (List.isChain_append.1 hal).2.1.tail⟩

end Start

section Loop

variable {R : List Region} {s s' : Heap} {a z b : ℕ}

/-- **One pass of the inner loop.** -/
theorem trimArea_trimmed (hinv : Inv R s) (hsnug : ∀ r ∈ R, r.Snug) (hb : b ∈ trimBuckets)
    (ha : (a, z) ∈ areasOf true R) (hz : areaBucket z = some b) (hs : trimArea b a s = some s') :
    ∃ R', Trimmed R s a R' s' ∧ areasOf false R' = areasOf false R := by
  obtain ⟨h, rfl, rfl⟩ := Hole.exists_of_mem_areasOf ha
  simp only at *
  have hl8 := hinv.placed.left_mod
  have ha8 := hinv.placed.addr_mod
  have hc : Core (⟨h.addr, z, h.left + 1, z⟩ :: follow h.addr (h.addr + z) h.post ::
      h.others (h.addr + z)) ((h.addr, z) :: h.otherAreas true (h.addr + z)) s := hinv.core_one
  obtain ⟨hleft, hsize⟩ := hc.header _ List.mem_cons_self
  simp only at hleft hsize
  have hright := hinv.right_header (A := [_]) (by omega) hc
  simp only [trimArea, isEndOfOsAllocation, isStartOfOsAllocation, rightHeader, hsize, hleft,
    untag_succ (show h.left % 2 = 0 by omega), decide_eq_true_eq] at hs
  split_ifs at hs with hend hstart
  · obtain ⟨hpost, -⟩ | ⟨y, post, -, hy, hy0, -⟩ := hright
    · exact hinv.trimEnd hz hpost hs
    · omega
  · obtain ⟨hpre, -, -, -⟩ | ⟨pre, y, l, -, hm, hl, -⟩ := hinv.left_header (N := [_, _]) hc
    · obtain ⟨-, hzero, -⟩ | ⟨y, post, hpost, -⟩ := hright
      · omega
      · have hsent : h.sentinel = 16 := by
          by_contra hne
          refine hsnug (h.region [⟨z, true⟩]) (by simp [Hole.fill]) ?_ ⟨z, true⟩ h.post
            (by simp [Hole.region, hpre]) (by simp [hpost]) rfl b hb hz
          have : h.sentinel % 8 = 0 ∧ 16 ≤ h.sentinel ∧ h.sentinel < 48 :=
            hinv.region_ok.sentinel
          simp only [Hole.region]
          omega
        exact hinv.trimStart hz hpre hsent hs
    · omega
  · cases hs
    exact ⟨_, ⟨hinv, rfl, fun f hf _ => hf, id⟩, rfl⟩

/-- `a` is `NULL` or a free area of the bucket `b`. -/
def OnList (b a : ℕ) (R : List Region) : Prop :=
  a = 0 ∨ ∃ z, (a, z) ∈ areasOf true R ∧ areaBucket z = some b

theorem Inv.head_onList (hinv : Inv R s) (b : ℕ) : OnList b (s.freeLists b) R := by
  obtain ⟨L, hL⟩ := hinv.core.lists
  rw [hL.head]
  cases hl : L b with
  | nil => exact .inl rfl
  | cons x xs => exact .inr ((hL.mem_iff b x).1 (by simp [hl]))

/-- `next` is `NULL` or another area of the bucket. -/
theorem Inv.next_onList (hinv : Inv R s) (ha : (a, z) ∈ areasOf true R)
    (hz : areaBucket z = some b) :
    OnList b (s.mem (a + 16)) R ∧ s.mem (a + 16) ≠ a := by
  obtain ⟨L, hL⟩ := hinv.core.lists
  have hmem : a ∈ L b := (hL.mem_iff b a).2 ⟨z, ha, hz⟩
  obtain ⟨xs, ys, hl⟩ := List.append_of_mem hmem
  have hnext : s.mem (a + 16) = ys.headD 0 := (hl ▸ hL.linked b).next_of_append
  have hnd := hl ▸ hL.nodup b
  rw [hnext]
  cases ys with
  | nil => exact ⟨.inl rfl, (hinv.core.free_pos ha).symm⟩
  | cons y ys =>
    refine ⟨.inr ((hL.mem_iff b y).1 (by simp [hl])), fun e => ?_⟩
    have := (List.nodup_append.1 hnd).2.1
    simp [show y = a from e] at this

/-- **The inner loop.**  The area it goes to next stays on its list. -/
theorem trimBucket_inv (hb : b ∈ trimBuckets) : ∀ {fuel : ℕ} {R : List Region} {s : Heap} {a : ℕ},
    Inv R s → (∀ r ∈ R, r.Snug) → OnList b a R → trimBucket b fuel a s = some s' →
    ∃ R', Inv R' s' ∧ (∀ r ∈ R', r.Snug) ∧ s'.live = s.live ∧
      areasOf false R' = areasOf false R := by
  intro fuel
  induction fuel with
  | zero =>
    intro R s a hinv hsnug ha hs
    unfold trimBucket at hs
    split_ifs at hs
    cases hs
    exact ⟨R, hinv, hsnug, rfl, rfl⟩
  | succ fuel ih =>
    intro R s a hinv hsnug ha hs
    unfold trimBucket at hs
    split_ifs at hs with h0
    · cases hs
      exact ⟨R, hinv, hsnug, rfl, rfl⟩
    · simp only [Option.bind_eq_bind, Option.bind_eq_some_iff] at hs
      obtain ⟨s₁, hs₁, hs⟩ := hs
      obtain h | ⟨z, haz, hz⟩ := ha
      · exact absurd h h0
      obtain ⟨hnext, hne⟩ := hinv.next_onList haz hz
      obtain ⟨R₁, htrim, hused⟩ := trimArea_trimmed hinv hsnug hb haz hz hs₁
      have hnext₁ : OnList b (s.mem (a + 16)) R₁ := by
        rcases hnext with h | ⟨z', haz', hz'⟩
        · exact .inl h
        · exact .inr ⟨z', htrim.free _ haz' hne, hz'⟩
      obtain ⟨R', hinv', hsnug', hlive, hused'⟩ := ih htrim.inv (htrim.snug hsnug) hnext₁ hs
      exact ⟨R', hinv', hsnug', hlive.trans htrim.live, hused'.trans hused⟩

/-- The loop over the buckets. -/
theorem trimBuckets_inv {l : List ℕ} (hl : ∀ b ∈ l, b ∈ trimBuckets) : ∀ {R : List Region} {s : Heap},
    Inv R s → (∀ r ∈ R, r.Snug) →
    l.foldlM (fun s bucket => trimBucket bucket s.size (s.freeLists bucket) s) s = some s' →
    ∃ R', Inv R' s' ∧ (∀ r ∈ R', r.Snug) ∧ s'.live = s.live ∧
      areasOf false R' = areasOf false R := by
  induction l with
  | nil =>
    intro R s hinv hsnug hs
    cases hs
    exact ⟨R, hinv, hsnug, rfl, rfl⟩
  | cons b l ih =>
    intro R s hinv hsnug hs
    simp only [List.foldlM_cons, Option.bind_eq_bind, Option.bind_eq_some_iff] at hs
    obtain ⟨s₁, hs₁, hs⟩ := hs
    obtain ⟨R₁, hinv₁, hsnug₁, hlive₁, hused₁⟩ := trimBucket_inv (hl b List.mem_cons_self) hinv hsnug
      (hinv.head_onList b) hs₁
    obtain ⟨R', hinv', hsnug', hlive, hused⟩ := ih (fun c hc => hl c (List.mem_cons_of_mem _ hc))
      hinv₁ hsnug₁ hs
    exact ⟨R', hinv', hsnug', hlive.trans hlive₁, hused.trans hused₁⟩

/-- **`cmpct_trim`.** -/
theorem cmpctTrim_inv (hinv : Inv R s) (hsnug : ∀ r ∈ R, r.Snug) (hs : cmpctTrim s = some s') :
    ∃ R', Inv R' s' ∧ s'.live = s.live ∧ areasOf false R' = areasOf false R := by
  simp only [cmpctTrim, Option.bind_eq_bind, Option.bind_eq_some_iff] at hs
  obtain ⟨s₀, hs₀, s₁, hs₁, hs⟩ := hs
  obtain rfl := Heap.lock_eq_some hs₀
  cases hs
  obtain ⟨R', hinv', -, hlive, hused⟩ :=
    trimBuckets_inv (fun _ => id) (hinv.lock true s.answers) hsnug hs₁
  exact ⟨R', hinv'.lock false _, hlive, hused⟩

end Loop

end Cmpct
end LittleKernel
