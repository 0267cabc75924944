/-
# Every page is free or handed out

The invariant of the page allocator and what a whole sequence of its calls gives.  `Inv`
has two parts.  `Layout` is about the arenas alone: their addresses are disjoint and so are
their page arrays, whence a page has one arena, one address and one place.  The rest ties
the free lists, the counts and `VM_PAGE_FLAG_NONFREE` together.

Every allocation is a sequence of single pages that leave the allocator (`Hands`), whatever
order the call finds them in, and every free a sequence of single pages that come back.
-/

import LittleKernel.Kernel.Pmm.Basic

namespace LittleKernel
namespace Pmm

open Word Machine

/-- `p` is a page of the arena. -/
def Arena.IsPage (a : Arena) (p : ℕ) : Prop := ∃ i < a.pageCount, p = a.page i

/-- `p` is a page of an arena that was added. -/
def State.IsPage (s : State) (p : ℕ) : Prop := ∃ a ∈ s.arenaList, (s.arena a).IsPage p

/-! ### The arenas -/

/-- Whole pages below the top of the address range. -/
structure Arena.WellFormed (a : Arena) : Prop where
  base_dvd : pageSize ∣ a.base
  size_dvd : pageSize ∣ a.size
  size_pos : 0 < a.size
  fits : a.base + a.size ≤ 2 ^ 64

/-- No address belongs to both arenas. -/
def Arena.Disjoint (a b : Arena) : Prop :=
  a.base + a.size ≤ b.base ∨ b.base + b.size ≤ a.base

/-- The end of the page array. -/
def Arena.arrayEnd (a : Arena) : ℕ := a.pageArray + a.pageCount * sizeofVmPage

/-- What holds of the arenas whatever is free. -/
structure Layout (s : State) : Prop where
  nodup : s.arenaList.Nodup
  wellFormed : ∀ a ∈ s.arenaList, (s.arena a).WellFormed
  apart : ∀ a ∈ s.arenaList, ∀ b ∈ s.arenaList, a ≠ b → (s.arena a).Disjoint (s.arena b)
  arrays : ∀ a ∈ s.arenaList, ∀ b ∈ s.arenaList, a ≠ b →
    (s.arena a).arrayEnd ≤ (s.arena b).pageArray ∨ (s.arena b).arrayEnd ≤ (s.arena a).pageArray
  boot : ∀ a ∈ s.arenaList, (s.arena a).arrayEnd ≤ s.bootAllocEnd

section Arena

variable {a : Arena} {p i : ℕ}

theorem Arena.belongs_page (hi : i < a.pageCount) : a.belongs (a.page i) := by
  simp only [Arena.belongs, Arena.page, sizeofVmPage]
  omega

theorem Arena.IsPage.belongs (h : a.IsPage p) : a.belongs p := by
  obtain ⟨i, hi, rfl⟩ := h
  exact Arena.belongs_page hi

theorem Arena.page_injective {j : ℕ} (h : a.page i = a.page j) : i = j := by
  simp only [Arena.page, sizeofVmPage] at h
  omega

theorem Arena.WellFormed.size_eq (h : a.WellFormed) : a.size = a.pageCount * pageSize :=
  (Nat.div_mul_cancel h.size_dvd).symm

theorem Arena.WellFormed.addressIn_iff (h : a.WellFormed) {addr : ℕ} :
    a.addressIn addr ↔ a.base ≤ addr ∧ addr < a.base + a.size := by
  have hs := h.size_pos
  rw [Arena.addressIn, lastW_of_le hs h.fits]
  omega

theorem Arena.WellFormed.addressIn_page (h : a.WellFormed) (hi : i < a.pageCount) :
    a.addressIn (a.base + i * pageSize) := by
  have hs := h.size_eq
  rw [h.addressIn_iff]
  simp only [pageSize] at *
  omega

theorem Arena.pageAt_base_add (a : Arena) (i : ℕ) : a.pageAt (a.base + i * pageSize) = a.page i := by
  rw [Arena.pageAt, Nat.add_sub_cancel_left, Nat.mul_div_cancel _ (by norm_num [pageSize])]

/-- Every address of the arena is in one of its pages. -/
theorem Arena.WellFormed.isPage_pageAt (h : a.WellFormed) {addr : ℕ} (ha : a.addressIn addr) :
    a.IsPage (a.pageAt addr) := by
  rw [h.addressIn_iff] at ha
  have hs := h.size_eq
  refine ⟨(addr - a.base) / pageSize, ?_, rfl⟩
  simp only [pageSize] at *
  omega

theorem Arena.WellFormed.pageAddress_page (h : a.WellFormed) (hi : i < a.pageCount) :
    a.pageAddress (a.page i) = a.base + i * pageSize := by
  have hs := h.size_eq
  have hf := h.fits
  rw [Arena.pageAddress, Arena.page, Nat.add_sub_cancel_left,
    Nat.mul_div_cancel _ (by norm_num [sizeofVmPage]), Nat.add_comm, u64_of_lt]
  simp only [pageSize] at *
  omega

end Arena

/-- The only element that passes a test is the one a search finds. -/
theorem find?_eq_some_of_unique {α : Type*} {l : List α} {P : α → Bool} {a : α} (ha : a ∈ l)
    (hP : P a = true) (hu : ∀ b ∈ l, P b = true → b = a) : l.find? P = some a := by
  cases h : l.find? P with
  | none => exact absurd hP (by simpa using List.find?_eq_none.1 h a ha)
  | some b => rw [hu b (List.mem_of_find?_eq_some h) (List.find?_some h)]

section Layout

variable {s : State} {a b p i : ℕ}

variable (h : Layout s)
include h

/-- A pointer into a page array tells the arena. -/
theorem Layout.belongs_unique (ha : a ∈ s.arenaList) (hb : b ∈ s.arenaList)
    (hpa : (s.arena a).belongs p) (hpb : (s.arena b).belongs p) : b = a := by
  by_contra hne
  obtain h' | h' := h.arrays b hb a ha hne <;>
    simp only [Arena.belongs, Arena.arrayEnd] at * <;> omega

theorem Layout.isPage_unique (ha : a ∈ s.arenaList) (hb : b ∈ s.arenaList)
    (hpa : (s.arena a).IsPage p) (hpb : (s.arena b).IsPage p) : b = a :=
  h.belongs_unique ha hb hpa.belongs hpb.belongs

theorem Layout.find?_belongs (ha : a ∈ s.arenaList) (hp : (s.arena a).IsPage p) :
    (s.arenaList.find? fun b => (s.arena b).belongs p) = some a :=
  find?_eq_some_of_unique ha (by simpa using hp.belongs)
    fun b hb hpb => h.belongs_unique ha hb hp.belongs (by simpa using hpb)

theorem Layout.find?_addressIn {addr : ℕ} (ha : a ∈ s.arenaList)
    (hin : (s.arena a).addressIn addr) :
    (s.arenaList.find? fun b => (s.arena b).addressIn addr) = some a := by
  refine find?_eq_some_of_unique ha (by simpa using hin) fun b hb hinb => ?_
  simp only [decide_eq_true_eq] at hinb
  rw [(h.wellFormed a ha).addressIn_iff] at hin
  rw [(h.wellFormed b hb).addressIn_iff] at hinb
  by_contra hne
  obtain h' | h' := h.apart b hb a ha hne <;> omega

theorem Layout.vmPageToPaddr_page (ha : a ∈ s.arenaList) (hi : i < (s.arena a).pageCount) :
    vmPageToPaddr s ((s.arena a).page i) = (s.arena a).base + i * pageSize := by
  rw [vmPageToPaddr, h.find?_belongs ha ⟨i, hi, rfl⟩]
  exact (h.wellFormed a ha).pageAddress_page hi

theorem Layout.paddrToVmPage_base_add (ha : a ∈ s.arenaList) (hi : i < (s.arena a).pageCount) :
    paddrToVmPage s ((s.arena a).base + i * pageSize) = some ((s.arena a).page i) := by
  rw [paddrToVmPage, h.find?_addressIn ha ((h.wellFormed a ha).addressIn_page hi),
    Option.map_some, Arena.pageAt_base_add]

/-- From a page to its address and back. -/
theorem Layout.paddrToVmPage_vmPageToPaddr (hp : s.IsPage p) :
    paddrToVmPage s (vmPageToPaddr s p) = some p := by
  obtain ⟨a, ha, i, hi, rfl⟩ := hp
  rw [h.vmPageToPaddr_page ha hi, h.paddrToVmPage_base_add ha hi]

/-- From a page-aligned address of an arena to its page and back. -/
theorem Layout.vmPageToPaddr_paddrToVmPage {addr : ℕ} (ha : a ∈ s.arenaList)
    (hin : (s.arena a).addressIn addr) (hal : pageSize ∣ addr) :
    ∃ p, paddrToVmPage s addr = some p ∧ s.IsPage p ∧ vmPageToPaddr s p = addr := by
  have hwf := h.wellFormed a ha
  rw [hwf.addressIn_iff] at hin
  obtain ⟨k, hk⟩ := Nat.dvd_sub hal hwf.base_dvd
  have haddr : addr = (s.arena a).base + k * pageSize := by
    rw [Nat.mul_comm, ← hk]; omega
  have hk' : k < (s.arena a).pageCount := by
    have hs := hwf.size_eq
    simp only [pageSize] at *
    omega
  rw [haddr]
  exact ⟨_, h.paddrToVmPage_base_add ha hk', ⟨a, ha, k, hk', rfl⟩, h.vmPageToPaddr_page ha hk'⟩

end Layout

/-! ### The invariant -/

/-- The pages that are handed out. -/
def outstanding (s : State) : Set ℕ := {p | s.IsPage p ∧ s.nonfree p = true}

/-- The invariant: the free lists hold exactly the pages without
`VM_PAGE_FLAG_NONFREE`, each once, in its own arena. -/
structure Inv (s : State) : Prop extends Layout s where
  mem_freeList : ∀ a p, p ∈ (s.arena a).freeList ↔
    a ∈ s.arenaList ∧ (s.arena a).IsPage p ∧ s.nonfree p = false
  freeList_nodup : ∀ a, (s.arena a).freeList.Nodup
  freeCount_eq : ∀ a ∈ s.arenaList, (s.arena a).freeCount = (s.arena a).freeList.length

theorem inv_initial (bootAllocEnd : ℕ) : Inv (initial bootAllocEnd) where
  nodup := List.nodup_nil
  wellFormed := by simp [initial]
  apart := by simp [initial]
  arrays := by simp [initial]
  boot := by simp [initial]
  mem_freeList := by simp [initial]
  freeList_nodup := by simp [initial]
  freeCount_eq := by simp [initial]

/-- The two states have the same arenas, whatever is free in them. -/
structure SameArenas (s s' : State) : Prop where
  arenaList : s'.arenaList = s.arenaList
  bootAllocEnd : s'.bootAllocEnd = s.bootAllocEnd
  kmap : ∀ a, (s'.arena a).kmap = (s.arena a).kmap
  base : ∀ a, (s'.arena a).base = (s.arena a).base
  size : ∀ a, (s'.arena a).size = (s.arena a).size
  pageArray : ∀ a, (s'.arena a).pageArray = (s.arena a).pageArray

namespace SameArenas

variable {s s' s'' : State}

theorem refl (s : State) : SameArenas s s := ⟨rfl, rfl, fun _ => rfl, fun _ => rfl, fun _ => rfl,
  fun _ => rfl⟩

variable (h : SameArenas s s')
include h

theorem trans (h' : SameArenas s' s'') : SameArenas s s'' where
  arenaList := h'.arenaList.trans h.arenaList
  bootAllocEnd := h'.bootAllocEnd.trans h.bootAllocEnd
  kmap a := (h'.kmap a).trans (h.kmap a)
  base a := (h'.base a).trans (h.base a)
  size a := (h'.size a).trans (h.size a)
  pageArray a := (h'.pageArray a).trans (h.pageArray a)

theorem pageCount (a : ℕ) :
    (s'.arena a).pageCount = (s.arena a).pageCount := by
  simp only [Arena.pageCount, h.size]

theorem page (a i : ℕ) : (s'.arena a).page i = (s.arena a).page i := by
  simp only [Arena.page, h.pageArray]

theorem isPage_arena (a p : ℕ) :
    (s'.arena a).IsPage p ↔ (s.arena a).IsPage p := by
  simp only [Arena.IsPage, h.pageCount, h.page]

theorem isPage (p : ℕ) : s'.IsPage p ↔ s.IsPage p := by
  simp only [State.IsPage, h.arenaList, h.isPage_arena]

theorem layout (hs : Layout s) : Layout s' where
  nodup := h.arenaList ▸ hs.nodup
  wellFormed a ha := by
    obtain ⟨h₁, h₂, h₃, h₄⟩ := hs.wellFormed a (h.arenaList ▸ ha)
    exact ⟨by rwa [h.base], by rwa [h.size], by rwa [h.size], by rwa [h.base, h.size]⟩
  apart a ha b hb hne := by
    simp only [Arena.Disjoint, h.base, h.size]
    exact hs.apart a (h.arenaList ▸ ha) b (h.arenaList ▸ hb) hne
  arrays a ha b hb hne := by
    simp only [Arena.arrayEnd, h.pageArray, h.pageCount]
    exact hs.arrays a (h.arenaList ▸ ha) b (h.arenaList ▸ hb) hne
  boot a ha := by
    simp only [Arena.arrayEnd, h.pageArray, h.pageCount, h.bootAllocEnd]
    exact hs.boot a (h.arenaList ▸ ha)

end SameArenas

/-! ### Pages that leave and pages that come back -/

section Steps

variable {s s' s'' : State} {a p : ℕ} {ps qs : List ℕ}

theorem SameArenas.handOut (s : State) (a p : ℕ) : SameArenas s (s.handOut a p) :=
  ⟨rfl, rfl, fun _ => rfl, fun _ => rfl, fun _ => rfl, fun _ => rfl⟩

theorem SameArenas.takeBack (s : State) (a p : ℕ) : SameArenas s (s.takeBack a p) := by
  refine ⟨rfl, rfl, ?_, ?_, ?_, ?_⟩ <;>
  · intro b
    by_cases hb : b = a
    · subst hb; simp [State.takeBack]
    · simp [State.takeBack, hb]

/-- A page that is free leaves the allocator. -/
theorem Inv.handOut (h : Inv s) (ha : a ∈ s.arenaList) (hp : (s.arena a).IsPage p)
    (hf : s.nonfree p = false) : Inv (s.handOut a p) := by
  have hmem : p ∈ (s.arena a).freeList := (h.mem_freeList a p).2 ⟨ha, hp, hf⟩
  refine { (SameArenas.handOut s a p).layout h.toLayout with
    mem_freeList := ?_, freeList_nodup := ?_, freeCount_eq := ?_ }
  · intro b q
    change q ∈ (s.arena b).freeList.erase p ↔ b ∈ s.arenaList ∧ (s.arena b).IsPage q ∧
      (if q = p then true else s.nonfree q) = false
    rw [(h.freeList_nodup b).mem_erase_iff, h.mem_freeList]
    by_cases hq : q = p <;> simp [hq]
  · intro b
    exact (h.freeList_nodup b).erase p
  · intro b hb
    change (s.arena b).freeCount - (if b = a then 1 else 0) = ((s.arena b).freeList.erase p).length
    rw [h.freeCount_eq b hb]
    by_cases hba : b = a
    · subst hba
      have := List.length_pos_of_mem hmem
      rw [List.length_erase_of_mem hmem, if_pos rfl]
      omega
    · have hnot : p ∉ (s.arena b).freeList := fun hpb =>
        hba (h.isPage_unique ha hb hp ((h.mem_freeList b p).1 hpb).2.1)
      rw [List.erase_of_not_mem hnot, if_neg hba, Int.sub_zero]

/-- `list_remove_head_type` unlinks the page from the only list it is on. -/
theorem Inv.removeHead_eq (h : Inv s) {rest : List ℕ}
    (hl : (s.arena a).freeList = p :: rest) : s.removeHead a p = s.handOut a p := by
  have hmem := (h.mem_freeList a p).1 (hl ▸ List.mem_cons_self)
  have harena : (s.removeHead a p).arena = (s.handOut a p).arena := by
    funext b
    by_cases hba : b = a
    · subst hba
      simp [State.removeHead, State.handOut, hl]
    · have hnot : p ∉ (s.arena b).freeList := fun hpb => hba
        (h.isPage_unique hmem.1 ((h.mem_freeList b p).1 hpb).1 hmem.2.1
          ((h.mem_freeList b p).1 hpb).2.1)
      simp [State.removeHead, State.handOut, hba, List.erase_of_not_mem hnot]
  simp only [State.removeHead, State.handOut] at harena ⊢
  rw [harena]

/-- A page that is handed out comes back. -/
theorem Inv.takeBack (h : Inv s) (ha : a ∈ s.arenaList) (hp : (s.arena a).IsPage p)
    (hn : s.nonfree p = true) : Inv (s.takeBack a p) := by
  have hnot : ∀ b, p ∉ (s.arena b).freeList := fun b hb => by
    simpa [hn] using ((h.mem_freeList b p).1 hb).2.2
  refine { (SameArenas.takeBack s a p).layout h.toLayout with
    mem_freeList := ?_, freeList_nodup := ?_, freeCount_eq := ?_ }
  · intro b q
    rw [(SameArenas.takeBack s a p).isPage_arena]
    by_cases hba : b = a
    · subst hba
      by_cases hq : q = p
      · simp [State.takeBack, hq, ha, hp]
      · simp [State.takeBack, hq, h.mem_freeList]
    · by_cases hq : q = p
      · have : ¬(b ∈ s.arenaList ∧ (s.arena b).IsPage p) := fun hb =>
          hba (h.isPage_unique ha hb.1 hp hb.2)
        subst hq
        simpa [State.takeBack, hba, hnot b] using this
      · simp [State.takeBack, hba, hq, h.mem_freeList]
  · intro b
    by_cases hba : b = a
    · subst hba
      simpa [State.takeBack] using ⟨hnot b, h.freeList_nodup b⟩
    · simpa [State.takeBack, hba] using h.freeList_nodup b
  · intro b hb
    by_cases hba : b = a
    · subst hba
      simp [State.takeBack, h.freeCount_eq b ha]
    · simpa [State.takeBack, hba] using h.freeCount_eq b hb

/-- The pages `ps` leave the allocator one after the other, each of them free when its turn
comes. -/
inductive Hands : State → List ℕ → State → Prop
  | nil (s : State) : Hands s [] s
  | cons {s s' : State} {a p : ℕ} {ps : List ℕ} (ha : a ∈ s.arenaList)
      (hp : (s.arena a).IsPage p) (hf : s.nonfree p = false) (h : Hands (s.handOut a p) ps s') :
      Hands s (p :: ps) s'

namespace Hands

variable (h : Hands s ps s')
include h

theorem append (h' : Hands s' qs s'') : Hands s (ps ++ qs) s'' := by
  induction h with
  | nil s => exact h'
  | cons ha hp hf _ ih => exact .cons ha hp hf (ih h')

theorem inv (hs : Inv s) : Inv s' := by
  induction h with
  | nil s => exact hs
  | cons ha hp hf _ ih => exact ih (hs.handOut ha hp hf)

theorem sameArenas : SameArenas s s' := by
  induction h with
  | nil s => exact .refl s
  | cons _ _ _ _ ih => exact (SameArenas.handOut _ _ _).trans ih

/-- Flags are only set, and only those of the pages. -/
theorem nonfree_iff (q : ℕ) :
    s'.nonfree q = true ↔ q ∈ ps ∨ s.nonfree q = true := by
  induction h with
  | nil s => simp
  | @cons s s' a p ps ha hp hf _ ih =>
    rw [ih]
    by_cases hq : q = p <;> simp [State.handOut, hq]

theorem nodup : ps.Nodup ∧ ∀ p ∈ ps, s.nonfree p = false := by
  induction h with
  | nil s => simp
  | @cons s s' a p ps ha hp hf _ ih =>
    have hfree : ∀ q ∈ ps, q ≠ p ∧ s.nonfree q = false := by
      intro q hq
      have := ih.2 q hq
      by_cases hqp : q = p
      · simp [State.handOut, hqp] at this
      · simpa [State.handOut, hqp] using this
    refine ⟨List.nodup_cons.2 ⟨fun hp' => (hfree p hp').1 rfl, ih.1⟩, ?_⟩
    intro q hq
    obtain rfl | hq := List.mem_cons.1 hq
    · exact hf
    · exact (hfree q hq).2

theorem isPage : ∀ p ∈ ps, s.IsPage p := by
  induction h with
  | nil s => simp
  | @cons s s' a p ps ha hp _ _ ih =>
    intro q hq
    obtain rfl | hq := List.mem_cons.1 hq
    · exact ⟨a, ha, hp⟩
    · exact ((SameArenas.handOut s a p).isPage q).1 (ih q hq)

theorem outstanding_eq : outstanding s' = outstanding s ∪ {p | p ∈ ps} := by
  ext q
  simp only [outstanding, Set.mem_ofPred_eq, Set.mem_union, h.sameArenas.isPage, h.nonfree_iff]
  constructor
  · rintro ⟨hq, hq' | hq'⟩
    · exact .inr hq'
    · exact .inl ⟨hq, hq'⟩
  · rintro (⟨hq, hq'⟩ | hq)
    · exact ⟨hq, .inr hq'⟩
    · exact ⟨h.isPage q hq, .inl hq⟩

end Hands

end Steps

end Pmm
end LittleKernel
