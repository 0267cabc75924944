/-
# The calls of the page allocator

Each allocation of `kernel/vm/pmm.c` is a sequence of pages that leave (`Hands`), each free
a sequence of pages that come back; from that, what any sequence of calls keeps.

A caller's obligations are in `Ok`: an arena is new, made of whole pages and disjoint from
the others, pages are freed while they are handed out and once, and the pages of an arena
and the length of a contiguous run add up within 32 bits.
-/

import Mathlib.Data.List.Nodup
import LittleKernel.Kernel.Pmm.Invariant

namespace LittleKernel
namespace Pmm

open Word Machine

/-! ### Allocations hand out pages that are free -/

section Allocations

variable {s : State} {a : ℕ}

theorem allocPagesArena_hands (n : ℕ) (h : Inv s) :
    Hands s (allocPagesArena a n s).2.1 (allocPagesArena a n s).1 := by
  induction n generalizing s with
  | zero => exact .nil s
  | succ n ih =>
    cases hl : (s.arena a).freeList with
    | nil =>
      simp only [allocPagesArena, hl]
      exact .nil s
    | cons p rest =>
      obtain ⟨ha, hp, hf⟩ := (h.mem_freeList a p).1 (hl ▸ List.mem_cons_self)
      simp only [allocPagesArena, hl, h.removeHead_eq hl]
      exact .cons ha hp hf (ih (h.handOut ha hp hf))

theorem allocPagesWalk_hands (as : List ℕ) (n : ℕ) (h : Inv s) :
    Hands s (allocPagesWalk as n s).2 (allocPagesWalk as n s).1 := by
  induction as generalizing n s with
  | nil => exact .nil s
  | cons a as ih =>
    have hands := allocPagesArena_hands (a := a) n h
    simp only [allocPagesWalk]
    split_ifs
    · exact hands
    · exact hands.append (ih _ (hands.inv h))

theorem pmmAllocPages_hands (count : ℕ) (h : Inv s) :
    Hands s (pmmAllocPages s count).2 (pmmAllocPages s count).1 := by
  rw [pmmAllocPages]
  split_ifs
  · exact .nil s
  · exact allocPagesWalk_hands _ count h

theorem allocRangeArena_hands (n address : ℕ) (h : Inv s) (ha : a ∈ s.arenaList) :
    Hands s (allocRangeArena a n address s).2.1 (allocRangeArena a n address s).1 := by
  induction n generalizing s address with
  | zero => exact .nil s
  | succ n ih =>
    simp only [allocRangeArena]
    split_ifs with hin hnf
    · exact .nil s
    · have hp := (h.wellFormed a ha).isPage_pageAt hin
      have hf : s.nonfree ((s.arena a).pageAt address) = false := by simpa using hnf
      exact .cons ha hp hf (ih _ (h.handOut ha hp hf) ha)
    · exact .nil s

theorem allocRangeWalk_hands (as : List ℕ) (n address : ℕ) (h : Inv s)
    (has : ∀ a ∈ as, a ∈ s.arenaList) :
    Hands s (allocRangeWalk as n address s).2 (allocRangeWalk as n address s).1 := by
  induction as generalizing n address s with
  | nil => exact .nil s
  | cons a as ih =>
    have hands := allocRangeArena_hands n address h (has a List.mem_cons_self)
    simp only [allocRangeWalk]
    split_ifs
    · exact hands
    · refine hands.append (ih _ _ (hands.inv h) fun b hb => ?_)
      rw [hands.sameArenas.arenaList]
      exact has b (List.mem_cons_of_mem _ hb)

theorem pmmAllocRange_hands (address count : ℕ) (h : Inv s) :
    Hands s (pmmAllocRange s address count).2 (pmmAllocRange s address count).1 := by
  rw [pmmAllocRange]
  split_ifs
  · exact .nil s
  · exact allocRangeWalk_hands _ count _ h fun _ ha => ha

/-! ### A contiguous run -/

/-- `start + count` does not wrap at any position of the search. -/
def NoWrap (s : State) (count : ℕ) : Prop :=
  ∀ a ∈ s.arenaList, (s.arena a).kmap = true →
    ∀ start < (s.arena a).pageCount, start + count < 2 ^ 32

theorem firstNonfree_eq_none {x : Arena} {start count : ℕ}
    (h : firstNonfree s x start count = none) :
    ∀ i < count, s.nonfree (x.page (start + i)) = false := by
  intro i hi
  simpa using List.find?_eq_none.1 h i (List.mem_range.2 hi)

/-- What the search finds lies in the arena and is free. -/
theorem searchRun_spec {x : Arena} {count al off fuel start run : ℕ}
    (hw : ∀ start < x.pageCount, start + count < 2 ^ 32)
    (h : searchRun s x count al off fuel start = some (some run)) :
    run + count ≤ x.pageCount ∧ ∀ i < count, s.nonfree (x.page (run + i)) = false := by
  induction fuel generalizing start with
  | zero => simp [searchRun] at h
  | succ fuel ih =>
    simp only [searchRun] at h
    by_cases hin : start < x.pageCount ∧ u32 (start + count) ≤ x.pageCount
    · rw [if_pos hin] at h
      have hle := hin.2
      rw [u32_of_lt (hw start hin.1)] at hle
      rw [Nat.min_eq_left (by omega)] at h
      cases hf : firstNonfree s x start count with
      | some i => exact ih (by simpa only [hf] using h)
      | none =>
        rw [hf] at h
        obtain rfl : start = run := by simpa [Nat.not_lt.2 hle] using h
        exact ⟨hle, firstNonfree_eq_none hf⟩
    · rw [if_neg hin] at h
      cases h

theorem findRun_spec {x : Arena} {count al run : ℕ}
    (hw : x.kmap = true → ∀ start < x.pageCount, start + count < 2 ^ 32)
    (h : findRun s x count al = some (some run)) :
    x.kmap = true ∧ run + count ≤ x.pageCount ∧
      ∀ i < count, s.nonfree (x.page (run + i)) = false := by
  simp only [findRun] at h
  split_ifs at h with hk hb
  · cases h
  · exact ⟨hk, searchRun_spec (hw hk) h⟩
  · cases h

theorem contiguousWalk_spec {count al b run : ℕ} {as : List ℕ} (hw : NoWrap s count)
    (has : ∀ a ∈ as, a ∈ s.arenaList) (h : contiguousWalk s count al as = some (some (b, run))) :
    b ∈ s.arenaList ∧ (s.arena b).kmap = true ∧ run + count ≤ (s.arena b).pageCount ∧
      ∀ i < count, s.nonfree ((s.arena b).page (run + i)) = false := by
  induction as with
  | nil => simp [contiguousWalk] at h
  | cons a as ih =>
    have ha := has a List.mem_cons_self
    cases hf : findRun s (s.arena a) count al with
    | none => simp [contiguousWalk, hf] at h
    | some found =>
      cases found with
      | some start =>
        obtain ⟨rfl, rfl⟩ : a = b ∧ start = run := by simpa [contiguousWalk, hf] using h
        exact ⟨ha, findRun_spec (hw a ha) hf⟩
      | none =>
        exact ih (fun c hc => has c (List.mem_cons_of_mem _ hc))
          (by simpa [contiguousWalk, hf] using h)

theorem hands_foldl {ps : List ℕ} (ha : a ∈ s.arenaList) (hnd : ps.Nodup)
    (hps : ∀ p ∈ ps, (s.arena a).IsPage p ∧ s.nonfree p = false) :
    Hands s ps (ps.foldl (fun s p => s.handOut a p) s) := by
  induction ps generalizing s with
  | nil => exact .nil s
  | cons p ps ih =>
    obtain ⟨hnot, hnd⟩ := List.nodup_cons.1 hnd
    obtain ⟨hp, hf⟩ := hps p List.mem_cons_self
    refine .cons ha hp hf (ih ha hnd fun q hq => ?_)
    have hne : q ≠ p := fun h => hnot (h ▸ hq)
    obtain ⟨hq₁, hq₂⟩ := hps q (List.mem_cons_of_mem _ hq)
    exact ⟨((SameArenas.handOut s a p).isPage_arena a q).2 hq₁,
      by simpa [State.handOut, hne] using hq₂⟩

theorem Arena.run_nodup (x : Arena) (start count : ℕ) : (x.run start count).Nodup := by
  refine List.Nodup.map (fun i j hij => ?_) List.nodup_range
  have := Arena.page_injective hij
  omega

/-- The pages of a run are consecutive, from the address in `*pa` on. -/
def Run.Contiguous (s : State) (r : Run) (count : ℕ) : Prop :=
  r.pages.length = count ∧
    ∀ i < count, ∃ p, r.pages[i]? = some p ∧ vmPageToPaddr s p = r.pa + i * pageSize

/-- What `pmm_alloc_contiguous` does when it returns: nothing, or a run of free pages. -/
theorem pmmAllocContiguous_spec {count al : ℕ} {s' : State} {r : Option Run} (h : Inv s)
    (hw : NoWrap s count) (hr : pmmAllocContiguous s count al = some (s', r)) :
    (r = none ∧ s' = s) ∨ ∃ run, r = some run ∧ Hands s run.pages s' ∧ run.Contiguous s count := by
  simp only [pmmAllocContiguous] at hr
  split_ifs at hr with hc
  · cases hr
    exact .inl ⟨rfl, rfl⟩
  · obtain ⟨found, hfound, hr⟩ := Option.map_eq_some_iff.1 hr
    cases found with
    | none =>
      obtain ⟨rfl, rfl⟩ := Prod.mk.inj hr
      exact .inl ⟨rfl, rfl⟩
    | some found =>
      obtain ⟨a, start⟩ := found
      obtain ⟨rfl, rfl⟩ := Prod.mk.inj hr
      obtain ⟨ha, hk, hle, hfree⟩ := contiguousWalk_spec hw (fun _ h => h) hfound
      have hwf := h.wellFormed a ha
      have hcount : u32 (start + count) - start = count := by
        rw [u32_of_lt (hw a ha hk start (by omega))]; omega
      rw [hcount]
      have hpa : u64 ((s.arena a).base + start * pageSize) =
          (s.arena a).base + start * pageSize := by
        have h₁ := hwf.size_eq
        have h₂ := hwf.fits
        refine u64_of_lt ?_
        simp only [pageSize] at *
        omega
      refine .inr ⟨_, rfl, hands_foldl ha (Arena.run_nodup _ _ _) ?_, ?_, ?_⟩
      · intro p hp
        obtain ⟨i, hi, rfl⟩ := List.mem_map.1 hp
        have hi := List.mem_range.1 hi
        exact ⟨⟨start + i, by omega, rfl⟩, hfree i hi⟩
      · simp [Arena.run]
      · intro i hi
        refine ⟨(s.arena a).page (start + i), by simp [Arena.run, hi], ?_⟩
        rw [h.vmPageToPaddr_page ha (by omega), hpa, Nat.add_mul, Nat.add_assoc]

end Allocations

/-! ### Freeing -/

theorem outstanding_takeBack {s : State} {a p : ℕ} :
    outstanding (s.takeBack a p) = outstanding s \ {p} := by
  ext q
  simp only [outstanding, Set.mem_ofPred_eq, Set.mem_sdiff, Set.mem_singleton_iff,
    (SameArenas.takeBack s a p).isPage]
  by_cases hq : q = p <;> simp [State.takeBack, hq]

variable {ps : List ℕ}

/-- What `pmm_free` does with pages that are handed out: every one comes back. -/
theorem pmmFree_spec {s : State} (h : Inv s) (hnd : ps.Nodup) (hps : ∀ p ∈ ps, p ∈ outstanding s) :
    Inv (pmmFree ps s).1 ∧ SameArenas s (pmmFree ps s).1 ∧
      outstanding (pmmFree ps s).1 = outstanding s \ {p | p ∈ ps} ∧
      (pmmFree ps s).2 = u32 ps.length := by
  induction ps generalizing s with
  | nil => exact ⟨h, .refl s, by simp [pmmFree], rfl⟩
  | cons p ps ih =>
    obtain ⟨hnot, hnd⟩ := List.nodup_cons.1 hnd
    obtain ⟨⟨a, ha, hp⟩, hn⟩ := hps p List.mem_cons_self
    have hps' : ∀ q ∈ ps, q ∈ outstanding (s.takeBack a p) := by
      intro q hq
      rw [outstanding_takeBack]
      exact ⟨hps q (List.mem_cons_of_mem _ hq), fun h => hnot (h ▸ hq)⟩
    obtain ⟨h₁, h₂, h₃, h₄⟩ := ih (h.takeBack ha hp hn) hnd hps'
    simp only [pmmFree, h.find?_belongs ha hp]
    refine ⟨h₁, (SameArenas.takeBack s a p).trans h₂, ?_, ?_⟩
    · rw [h₃, outstanding_takeBack]
      ext q
      simp only [Set.mem_sdiff, Set.mem_singleton_iff, Set.mem_ofPred_eq, List.mem_cons]
      tauto
    · rw [h₄]
      simp only [u32, List.length_cons]
      omega

/-! ### A new arena -/

/-- What `pmm_add_arena` asks of its caller. -/
structure Addable (s : State) (arena : ℕ) (i : ArenaInfo) : Prop where
  new : arena ∉ s.arenaList
  base_dvd : pageSize ∣ i.base
  size_dvd : pageSize ∣ i.size
  size_pos : 0 < i.size
  fits : i.base + i.size ≤ 2 ^ 64
  apart : ∀ b ∈ s.arenaList,
    i.base + i.size ≤ (s.arena b).base ∨ (s.arena b).base + (s.arena b).size ≤ i.base

theorem insertArena_perm (s : State) (arena priority : ℕ) (l : List ℕ) :
    (insertArena s arena priority l).Perm (arena :: l) := by
  induction l with
  | nil => rfl
  | cons a as ih =>
    rw [insertArena]
    split_ifs
    · rfl
    · exact (ih.cons a).trans (List.Perm.swap arena a as)

section AddArena

variable {s : State} {arena : ℕ} {i : ArenaInfo}

theorem le_align8 (n : ℕ) : n ≤ align8 n := by simp only [align8]; omega

theorem mem_arenaList_add {b : ℕ} :
    b ∈ (pmmAddArena s arena i).arenaList ↔ b = arena ∨ b ∈ s.arenaList :=
  (insertArena_perm s arena i.priority s.arenaList).mem_iff.trans List.mem_cons

theorem arena_add_self :
    (pmmAddArena s arena i).arena arena = i.added (align8 s.bootAllocEnd) := if_pos rfl

theorem arena_add_ne {b : ℕ} (hb : b ≠ arena) :
    (pmmAddArena s arena i).arena b = s.arena b := if_neg hb

/-- The new page array lies behind the others. -/
theorem Layout.arrayEnd_le_new (h : Layout s) {b : ℕ} (hb : b ∈ s.arenaList) :
    (s.arena b).arrayEnd ≤ align8 s.bootAllocEnd :=
  (h.boot b hb).trans (le_align8 _)

theorem Layout.nonfree_add (h : Layout s) {b p : ℕ} (hb : b ∈ s.arenaList)
    (hp : (s.arena b).IsPage p) : (pmmAddArena s arena i).nonfree p = s.nonfree p := by
  refine if_neg fun hbel => ?_
  have h₁ := h.arrayEnd_le_new hb
  have h₂ := hp.belongs
  simp only [Arena.belongs, Arena.arrayEnd, ArenaInfo.added] at *
  omega

/-- A new arena that lies apart from the others leaves them where they are. -/
theorem Layout.addArena (h : Layout s) (hok : Addable s arena i) :
    Layout (pmmAddArena s arena i) := by
  -- two arenas of the new list: both new, both old, or one of each
  have hpair : ∀ R : Arena → Arena → Prop, (∀ x y, R x y → R y x) →
      (∀ b ∈ s.arenaList, R (i.added (align8 s.bootAllocEnd)) (s.arena b)) →
      (∀ a ∈ s.arenaList, ∀ b ∈ s.arenaList, a ≠ b → R (s.arena a) (s.arena b)) →
      ∀ a ∈ (pmmAddArena s arena i).arenaList, ∀ b ∈ (pmmAddArena s arena i).arenaList, a ≠ b →
        R ((pmmAddArena s arena i).arena a) ((pmmAddArena s arena i).arena b) := by
    intro R hsymm hnew hold a ha b hb hne
    by_cases haa : a = arena
    · have hbs : b ∈ s.arenaList :=
        (mem_arenaList_add.1 hb).resolve_left fun h => hne (haa.trans h.symm)
      have hbb : b ≠ arena := fun h => hok.new (h ▸ hbs)
      rw [haa, arena_add_self, arena_add_ne hbb]
      exact hnew b hbs
    · have has := (mem_arenaList_add.1 ha).resolve_left haa
      by_cases hbb : b = arena
      · rw [hbb, arena_add_self, arena_add_ne haa]
        exact hsymm _ _ (hnew a has)
      · rw [arena_add_ne haa, arena_add_ne hbb]
        exact hold a has b ((mem_arenaList_add.1 hb).resolve_left hbb) hne
  have hone : ∀ P : Arena → Prop, P (i.added (align8 s.bootAllocEnd)) →
      (∀ b ∈ s.arenaList, P (s.arena b)) →
      ∀ a ∈ (pmmAddArena s arena i).arenaList, P ((pmmAddArena s arena i).arena a) := by
    intro P hnew hold a ha
    by_cases haa : a = arena
    · rw [haa, arena_add_self]
      exact hnew
    · rw [arena_add_ne haa]
      exact hold a ((mem_arenaList_add.1 ha).resolve_left haa)
  refine ⟨?_, ?_, ?_, ?_, ?_⟩
  · exact (insertArena_perm s arena i.priority s.arenaList).nodup_iff.2
      (List.nodup_cons.2 ⟨hok.new, h.nodup⟩)
  · exact hone _ ⟨hok.base_dvd, hok.size_dvd, hok.size_pos, hok.fits⟩ h.wellFormed
  · exact hpair _ (fun _ _ h => h.symm) (fun b hb => hok.apart b hb) h.apart
  · exact hpair (fun x y => x.arrayEnd ≤ y.pageArray ∨ y.arrayEnd ≤ x.pageArray)
      (fun _ _ h => h.symm) (fun b hb => .inr (h.arrayEnd_le_new hb)) h.arrays
  · refine hone (fun x => x.arrayEnd ≤ (pmmAddArena s arena i).bootAllocEnd) ?_ fun b hb => ?_
    · simp only [Arena.arrayEnd, Arena.pageCount, ArenaInfo.added, pmmAddArena, align8]
      omega
    · have := h.arrayEnd_le_new hb
      simp only [pmmAddArena]
      omega

/-- A new arena is all free, and the others are as they were. -/
theorem Inv.addArena (h : Inv s) (hok : Addable s arena i) : Inv (pmmAddArena s arena i) := by
  refine { h.toLayout.addArena hok with mem_freeList := ?_, freeList_nodup := ?_, freeCount_eq := ?_ }
  · intro b p
    by_cases hb : b = arena
    · subst hb
      rw [arena_add_self, mem_arenaList_add]
      constructor
      · intro hp
        obtain ⟨k, hk, rfl⟩ := List.mem_map.1 hp
        have hpage : (i.added (align8 s.bootAllocEnd)).IsPage
            ((i.added (align8 s.bootAllocEnd)).page k) := ⟨k, List.mem_range.1 hk, rfl⟩
        exact ⟨.inl rfl, hpage, if_pos hpage.belongs⟩
      · rintro ⟨-, ⟨k, hk, rfl⟩, -⟩
        exact List.mem_map.2 ⟨k, List.mem_range.2 hk, rfl⟩
    · rw [arena_add_ne hb, h.mem_freeList, mem_arenaList_add]
      constructor
      · rintro ⟨hbs, hp, hf⟩
        exact ⟨.inr hbs, hp, by rwa [h.nonfree_add hbs hp]⟩
      · rintro ⟨hbs, hp, hf⟩
        have hbs := hbs.resolve_left hb
        exact ⟨hbs, hp, by rwa [h.nonfree_add hbs hp] at hf⟩
  · intro b
    by_cases hb : b = arena
    · rw [hb, arena_add_self]
      refine List.Nodup.map (fun j k hjk => ?_) List.nodup_range
      simp only [sizeofVmPage] at hjk
      omega
    · rw [arena_add_ne hb]
      exact h.freeList_nodup b
  · intro b hbs
    by_cases hb : b = arena
    · rw [hb, arena_add_self]
      simp [ArenaInfo.added]
    · rw [arena_add_ne hb]
      exact h.freeCount_eq b ((mem_arenaList_add.1 hbs).resolve_left hb)

theorem Inv.outstanding_addArena (h : Inv s) (hok : Addable s arena i) :
    outstanding (pmmAddArena s arena i) = outstanding s := by
  ext p
  constructor
  · rintro ⟨⟨b, hbs, hp⟩, hn⟩
    by_cases hb : b = arena
    · rw [hb, arena_add_self] at hp
      have hfree : (pmmAddArena s arena i).nonfree p = false := if_pos hp.belongs
      simp [hfree] at hn
    · have hbs := (mem_arenaList_add.1 hbs).resolve_left hb
      rw [arena_add_ne hb] at hp
      exact ⟨⟨b, hbs, hp⟩, by rwa [h.nonfree_add hbs hp] at hn⟩
  · rintro ⟨⟨b, hbs, hp⟩, hn⟩
    have hb : b ≠ arena := fun h => hok.new (h ▸ hbs)
    exact ⟨⟨b, mem_arenaList_add.2 (.inr hbs), by rwa [arena_add_ne hb]⟩,
      by rwa [h.nonfree_add hbs hp]⟩

end AddArena

/-! ### Sequences of calls -/

/-- The calls. -/
inductive Call
  | addArena (arena : ℕ) (i : ArenaInfo)
  | allocPages (count : ℕ)
  | allocRange (address count : ℕ)
  | allocContiguous (count alignmentLog2 : ℕ)
  | allocKpages (count : ℕ)
  | free (list : List ℕ)
  | freePage (page : ℕ)
  | freeKpages (ptr count : ℕ)
  deriving DecidableEq

/-- What a call hands out and takes back, and the number or pointer it returns. -/
structure Out where
  handed : List ℕ
  taken : List ℕ
  ret : ℕ
  deriving DecidableEq

/-- One call; `none` when it does not return. -/
def step (env : Env) (s : State) : Call → Option (State × Out)
  | .addArena arena i => some (pmmAddArena s arena i, ⟨[], [], 0⟩)
  | .allocPages count =>
    let r := pmmAllocPages s count
    some (r.1, ⟨r.2, [], r.2.length⟩)
  | .allocRange address count =>
    let r := pmmAllocRange s address count
    some (r.1, ⟨r.2, [], r.2.length⟩)
  | .allocContiguous count alignmentLog2 =>
    (pmmAllocContiguous s count alignmentLog2).map fun r =>
      (r.1, ⟨r.2.elim [] Run.pages, [], r.2.elim 0 fun _ => count⟩)
  | .allocKpages count =>
    (pmmAllocKpages env s count).map fun r =>
      (r.1, ⟨r.2.elim [] fun k => k.1.pages, [], r.2.elim 0 Prod.snd⟩)
  | .free list =>
    let r := pmmFree list s
    some (r.1, ⟨[], list, r.2⟩)
  | .freePage page =>
    let r := pmmFreePage page s
    some (r.1, ⟨[], [page], r.2⟩)
  | .freeKpages ptr count =>
    let r := pmmFreeKpages env ptr count s
    some (r.1, ⟨[], kpages env s ptr count, r.2⟩)

/-- What a call asks of its caller. -/
def Ok (env : Env) (s : State) : Call → Prop
  | .addArena arena i => Addable s arena i
  | .allocPages _ | .allocRange _ _ => True
  | .allocContiguous count _ | .allocKpages count => NoWrap s count
  | .free list => list.Nodup ∧ ∀ p ∈ list, p ∈ outstanding s
  | .freePage page => page ∈ outstanding s
  | .freeKpages ptr count =>
    (kpages env s ptr count).Nodup ∧ ∀ p ∈ kpages env s ptr count, p ∈ outstanding s

instance (a : Arena) (p : ℕ) : Decidable (a.IsPage p) :=
  inferInstanceAs (Decidable (∃ i < a.pageCount, p = a.page i))

instance (s : State) (p : ℕ) : Decidable (p ∈ outstanding s) :=
  inferInstanceAs (Decidable ((∃ a ∈ s.arenaList, (s.arena a).IsPage p) ∧ _))

instance (s : State) (count : ℕ) : Decidable (NoWrap s count) :=
  inferInstanceAs (Decidable (∀ a ∈ s.arenaList, (s.arena a).kmap = true →
    ∀ start < (s.arena a).pageCount, start + count < 2 ^ 32))

instance (s : State) (arena : ℕ) (i : ArenaInfo) : Decidable (Addable s arena i) :=
  decidable_of_iff (arena ∉ s.arenaList ∧ pageSize ∣ i.base ∧ pageSize ∣ i.size ∧ 0 < i.size ∧
      i.base + i.size ≤ 2 ^ 64 ∧ ∀ b ∈ s.arenaList,
        i.base + i.size ≤ (s.arena b).base ∨ (s.arena b).base + (s.arena b).size ≤ i.base)
    ⟨fun ⟨h₁, h₂, h₃, h₄, h₅, h₆⟩ => ⟨h₁, h₂, h₃, h₄, h₅, h₆⟩,
      fun ⟨h₁, h₂, h₃, h₄, h₅, h₆⟩ => ⟨h₁, h₂, h₃, h₄, h₅, h₆⟩⟩

instance (env : Env) (s : State) : (c : Call) → Decidable (Ok env s c)
  | .addArena arena i => inferInstanceAs (Decidable (Addable s arena i))
  | .allocPages _ | .allocRange _ _ => inferInstanceAs (Decidable True)
  | .allocContiguous count _ | .allocKpages count => inferInstanceAs (Decidable (NoWrap s count))
  | .free list => inferInstanceAs (Decidable (list.Nodup ∧ ∀ p ∈ list, p ∈ outstanding s))
  | .freePage page => inferInstanceAs (Decidable (page ∈ outstanding s))
  | .freeKpages ptr count => inferInstanceAs (Decidable ((kpages env s ptr count).Nodup ∧
      ∀ p ∈ kpages env s ptr count, p ∈ outstanding s))

/-- The pages that are handed out, before and after a call. -/
def Ledger (t : Set ℕ) (_ : Call) (o : Out) (t' : Set ℕ) : Prop :=
  o.handed.Nodup ∧ (∀ p ∈ o.handed, p ∉ t) ∧ (∀ p ∈ o.taken, p ∈ t) ∧
    t' = (t ∪ {p | p ∈ o.handed}) \ {p | p ∈ o.taken}

theorem Hands.ledger {s s' : State} (h : Hands s ps s') (c : Call) (ret : ℕ) :
    Ledger (outstanding s) c ⟨ps, [], ret⟩ (outstanding s') := by
  refine ⟨h.nodup.1, fun p hp ht => ?_, by simp, ?_⟩
  · simpa [h.nodup.2 p hp] using ht.2
  · rw [h.outstanding_eq]
    ext q
    simp

theorem pmmFree_ledger {s : State} (h : Inv s) (hnd : ps.Nodup)
    (hps : ∀ p ∈ ps, p ∈ outstanding s) (c : Call) (ret : ℕ) :
    Ledger (outstanding s) c ⟨[], ps, ret⟩ (outstanding (pmmFree ps s).1) ∧
      Inv (pmmFree ps s).1 := by
  obtain ⟨h₁, -, h₃, -⟩ := pmmFree_spec h hnd hps
  refine ⟨⟨List.nodup_nil, by simp, hps, ?_⟩, h₁⟩
  rw [h₃]
  ext q
  simp

/-- One call keeps the invariant, and hands out only pages that are not handed out. -/
theorem Inv.step {env : Env} {s s' : State} {c : Call} {o : Out} (h : Inv s) (hok : Ok env s c)
    (hs : step env s c = some (s', o)) : Ledger (outstanding s) c o (outstanding s') ∧ Inv s' := by
  -- a run found, with or without the pointer to it
  have hcontig : ∀ {count al : ℕ} {r : Option Run}, NoWrap s count →
      pmmAllocContiguous s count al = some (s', r) → o.handed = r.elim [] Run.pages →
      o.taken = [] → Ledger (outstanding s) c o (outstanding s') ∧ Inv s' := by
    intro count al r hw hr h₁ h₂
    obtain ⟨handed, taken, ret⟩ := o
    dsimp only at h₁ h₂
    subst h₁ h₂
    obtain ⟨rfl, rfl⟩ | ⟨run, rfl, hands, -⟩ := pmmAllocContiguous_spec h hw hr
    · exact ⟨(Hands.nil s').ledger c ret, h⟩
    · exact ⟨hands.ledger c ret, hands.inv h⟩
  cases c with
  | addArena arena i =>
    cases hs
    refine ⟨⟨List.nodup_nil, by simp, by simp, ?_⟩, h.addArena hok⟩
    rw [h.outstanding_addArena hok]
    ext q
    simp
  | allocPages count =>
    cases hs
    have hands := pmmAllocPages_hands count h
    exact ⟨hands.ledger _ _, hands.inv h⟩
  | allocRange address count =>
    cases hs
    have hands := pmmAllocRange_hands address count h
    exact ⟨hands.ledger _ _, hands.inv h⟩
  | allocContiguous count al =>
    obtain ⟨⟨s₁, r⟩, hr, heq⟩ := Option.map_eq_some_iff.1 hs
    obtain ⟨rfl, rfl⟩ := Prod.mk.inj heq
    exact hcontig hok hr rfl rfl
  | allocKpages count =>
    obtain ⟨⟨s₁, k⟩, hk, heq⟩ := Option.map_eq_some_iff.1 hs
    obtain ⟨rfl, rfl⟩ := Prod.mk.inj heq
    obtain ⟨⟨s₂, r⟩, hr, heq⟩ := Option.map_eq_some_iff.1 hk
    obtain ⟨rfl, rfl⟩ := Prod.mk.inj heq
    refine hcontig hok hr ?_ rfl
    cases r <;> rfl
  | free list =>
    cases hs
    exact pmmFree_ledger h hok.1 hok.2 _ _
  | freePage page =>
    cases hs
    exact pmmFree_ledger h (by simp)
      (fun p hp => List.mem_singleton.1 hp ▸ hok) _ _
  | freeKpages ptr count =>
    cases hs
    exact pmmFree_ledger h hok.1 hok.2 _ _

variable {t t' : Set ℕ} {cs : List Call} {os : List Out}

theorem Ledger.handed_nodup (h : Accepts Ledger t cs os t') : ∀ o ∈ os, o.handed.Nodup := by
  induction h with
  | nil t => simp
  | cons hl _ ih => simpa using ⟨hl.1, ih⟩

/-- A page that is handed out comes back before it is handed out again. -/
theorem Ledger.taken_before {p : ℕ}
    (h : Accepts Ledger t cs os t') (hp : p ∈ t) {j : ℕ} {o : Out} (hj : os[j]? = some o)
    (hpo : p ∈ o.handed) : ∃ k < j, ∃ o', os[k]? = some o' ∧ p ∈ o'.taken := by
  induction h generalizing j with
  | nil t => simp at hj
  | @cons t t₁ t₂ c o₁ cs os hl _ ih =>
    obtain ⟨-, hfresh, -, rfl⟩ := hl
    cases j with
    | zero =>
      obtain rfl : o₁ = o := by simpa using hj
      exact absurd hp (hfresh p hpo)
    | succ j =>
      by_cases ht : p ∈ o₁.taken
      · exact ⟨0, by omega, o₁, rfl, ht⟩
      · obtain ⟨k, hk, o', ho', hpo'⟩ := ih ⟨.inl hp, ht⟩ (by simpa using hj)
        exact ⟨k + 1, by omega, o', by simpa using ho', hpo'⟩

/-- Between two calls that hand out the same page there is one that takes it back. -/
theorem Ledger.taken_between {p : ℕ}
    (h : Accepts Ledger t cs os t') {i j : ℕ} {o₁ o₂ : Out} (hij : i < j)
    (hi : os[i]? = some o₁) (hj : os[j]? = some o₂) (h₁ : p ∈ o₁.handed) (h₂ : p ∈ o₂.handed) :
    ∃ k, i < k ∧ k < j ∧ ∃ o, os[k]? = some o ∧ p ∈ o.taken := by
  induction h generalizing i j with
  | nil t => simp at hi
  | @cons t t₁ t₂ c o cs os hl hrest ih =>
    obtain ⟨j, rfl⟩ : ∃ j', j = j' + 1 := ⟨j - 1, by omega⟩
    have hj' : os[j]? = some o₂ := by simpa using hj
    cases i with
    | zero =>
      obtain rfl : o = o₁ := by simpa using hi
      -- a call takes back only what was handed out before it
      have ht : p ∉ o.taken := fun ht => hl.2.1 p h₁ (hl.2.2.1 p ht)
      have hp : p ∈ t₁ := by
        rw [hl.2.2.2]
        exact ⟨.inr h₁, ht⟩
      obtain ⟨k, hk, o', ho', hpo'⟩ := taken_before hrest hp hj' h₂
      exact ⟨k + 1, by omega, by omega, o', by simpa using ho', hpo'⟩
    | succ i =>
      have hij' : i < j := by omega
      obtain ⟨k, hik, hkj, o', ho', hpo'⟩ := ih hij' (by simpa using hi) hj'
      exact ⟨k + 1, by omega, by omega, o', by simpa using ho', hpo'⟩

/-- Every page is free or handed out, the lists and the counts agree with the flags, and
pages and addresses translate into each other. -/
structure Consistent (s : State) : Prop where
  page : ∀ a ∈ s.arenaList, ∀ p, (s.arena a).IsPage p →
    ((s.arena a).freeList.count p = 1 ∧ (∀ b ∈ s.arenaList, b ≠ a → p ∉ (s.arena b).freeList) ∧
        s.nonfree p = false) ∨
      (s.nonfree p = true ∧ ∀ b ∈ s.arenaList, p ∉ (s.arena b).freeList)
  own : ∀ a ∈ s.arenaList, ∀ p ∈ (s.arena a).freeList, (s.arena a).IsPage p
  freeCount : ∀ a ∈ s.arenaList, (s.arena a).freeCount = (s.arena a).freeList.length
  page_paddr : ∀ p, s.IsPage p → paddrToVmPage s (vmPageToPaddr s p) = some p
  paddr_page : ∀ a ∈ s.arenaList, ∀ addr, (s.arena a).addressIn addr → pageSize ∣ addr →
    ∃ p, paddrToVmPage s addr = some p ∧ s.IsPage p ∧ vmPageToPaddr s p = addr

theorem Inv.consistent {s : State} (h : Inv s) : Consistent s where
  page a ha p hp := by
    cases hn : s.nonfree p with
    | false =>
      have hmem := (h.mem_freeList a p).2 ⟨ha, hp, hn⟩
      refine .inl ⟨List.count_eq_one_of_mem (h.freeList_nodup a) hmem, ?_, rfl⟩
      intro b hb hne hpb
      exact hne (h.isPage_unique ha hb hp ((h.mem_freeList b p).1 hpb).2.1)
    | true =>
      refine .inr ⟨rfl, fun b _ hpb => ?_⟩
      simpa [hn] using ((h.mem_freeList b p).1 hpb).2.2
  own a _ p hp := ((h.mem_freeList a p).1 hp).2.1
  freeCount := h.freeCount_eq
  page_paddr _ hp := h.paddrToVmPage_vmPageToPaddr hp
  paddr_page _ ha _ hin hal := h.vmPageToPaddr_paddrToVmPage ha hin hal

/-- **Every page is free or handed out, never both and never twice.**  After any sequence of
calls that keep their obligations and return, the allocator is `Consistent`; no call hands
out a page twice; and between two calls that hand out the same page there is a call that
takes it back. -/
theorem pages_handed_out_once (env : Env) (bootAllocEnd : ℕ) (cs : List Call) (s : State)
    (os : List Out)
    (hok : Along (fun s c => (step env s c).map Prod.fst) (Ok env) (initial bootAllocEnd) cs)
    (h : trace (step env) (initial bootAllocEnd) cs = some (s, os)) :
    Consistent s ∧ (∀ o ∈ os, o.handed.Nodup) ∧
      ∀ (i j : ℕ) (o₁ o₂ : Out) (p : ℕ), i < j → os[i]? = some o₁ → os[j]? = some o₂ →
        p ∈ o₁.handed → p ∈ o₂.handed →
        ∃ k, i < k ∧ k < j ∧ ∃ o, os[k]? = some o ∧ p ∈ o.taken := by
  obtain ⟨hacc, hinv⟩ := @trace_sound State Call Out (Set ℕ) (step env) Ledger Inv outstanding
    (Ok env) (fun _ _ _ _ hs hok h => hs.step hok h) cs _ s os (inv_initial bootAllocEnd) hok h
  refine ⟨hinv.consistent, Ledger.handed_nodup hacc, ?_⟩
  intro i j o₁ o₂ p hij hi hj h₁ h₂
  exact Ledger.taken_between hacc hij hi hj h₁ h₂

/-- Two arenas, the second in front of the first: a run for the kernel, a page from the
list, a range that ends with its arena, the run freed and handed out again. -/
def mixedCalls : List Call :=
  [.addArena 1 ⟨true, 5, 0x80000000, 0x3000⟩, .addArena 2 ⟨false, 1, 0x1000, 0x2000⟩,
    .allocKpages 2, .allocPages 1, .allocRange 0x2234 4, .freeKpages 0x80000000 2,
    .allocContiguous 3 13, .freePage 72]

/-- Pages mapped at their own addresses. -/
def identityMap : Env := ⟨id, id⟩

/-- All the calls return, and in the end both arenas are consistent. -/
theorem pages_handed_out_once_mixedCalls :
    ∃ s os, trace (step identityMap) (initial 0) mixedCalls = some (s, os) ∧ Consistent s := by
  have hok : Along (fun s c => (step identityMap s c).map Prod.fst) (Ok identityMap) (initial 0)
      mixedCalls := by decide +kernel
  obtain ⟨⟨s, os⟩, h⟩ : ∃ r, trace (step identityMap) (initial 0) mixedCalls = some r :=
    Option.isSome_iff_exists.1 (by decide +kernel)
  exact ⟨s, os, h, (pages_handed_out_once identityMap 0 mixedCalls s os hok h).1⟩

end Pmm
end LittleKernel
