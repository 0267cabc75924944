/-
# The region list of an address space

`kernel/vm/vmm.c`: `is_region_inside_aspace`, `trim_to_aspace`, `add_region_to_aspace`,
`check_gap`, `alloc_spot`, `alloc_region`, and the calls `vmm_reserve_space`,
`vmm_alloc_physical`, `vmm_alloc_contiguous`, `vmm_alloc` and `vmm_free_region`.

Addresses and sizes have `w` bits, pages `2 ^ shift` bytes.  `arch_mmu_pick_spot` is a
parameter: the weak one of `vmm.c` only aligns (`archMmuPickSpot`), an architecture may put
another in its place, and nothing is assumed of it.  Whether `calloc` and the page
allocator succeed and what `arch_mmu_query` finds is part of the call.  Names, page lists
and mappings have no bearing on the list and are left out, and so are the `DEBUG_ASSERT`s,
which stop the machine with the list as it is.

An address space may end at the top of the address range, where `base + size` is 0 in `w`
bits.  `Aspace` has the bounds in natural numbers; `WellFormed` is the invariant.  To those who
search it the list is a map from addresses to regions (`Does`).
-/

import Mathlib.Data.List.Find
import Mathlib.Data.List.Pairwise
import LittleKernel.Lib.Word

namespace LittleKernel
namespace Vmm

open Word

/-- `vmm_aspace_t`: whole pages, and nothing of it behind the top of the address range
(`STATIC_ASSERT` in `include/kernel/vm.h`). -/
structure Aspace (w shift : ℕ) where
  base : ℕ
  size : ℕ
  size_pos : 0 < size
  size_lt : size < 2 ^ w
  end_le : base + size ≤ 2 ^ w
  base_dvd : 2 ^ shift ∣ base
  size_dvd : 2 ^ shift ∣ size

/-- `vmm_region_t`. -/
structure Region where
  base : ℕ
  size : ℕ
  flags : ℕ
  archMmuFlags : ℕ
  deriving DecidableEq

/-- `status_t`. -/
inductive Status
  | noError
  | invalidArgs
  | outOfRange
  | noMemory
  | notFound
  deriving DecidableEq

/-- `VMM_REGION_FLAG_RESERVED`. -/
def regionFlagReserved : ℕ := 1

/-- `VMM_REGION_FLAG_PHYSICAL`. -/
def regionFlagPhysical : ℕ := 2

/-- `ARCH_MMU_FLAG_INVALID`. -/
def archMmuFlagInvalid : ℕ := 2 ^ 7

/-- The arguments of `arch_mmu_pick_spot` behind the address space. -/
structure Gap where
  base : ℕ
  prevFlags : ℕ
  last : ℕ
  nextFlags : ℕ
  align : ℕ
  size : ℕ
  archMmuFlags : ℕ

section Model

variable {w shift : ℕ}

/-- `ROUNDUP` to a power of two. -/
def roundup (w n align : ℕ) : ℕ := addW w n (align - 1) / align * align

/-- The weak `arch_mmu_pick_spot`. -/
def archMmuPickSpot (w : ℕ) (g : Gap) : ℕ := roundup w g.base g.align

/-- `is_inside_aspace`. -/
def isInsideAspace (a : Aspace w shift) (vaddr : ℕ) : Prop :=
  a.base ≤ vaddr ∧ vaddr ≤ lastW w a.base a.size

instance (a : Aspace w shift) (vaddr : ℕ) : Decidable (isInsideAspace a vaddr) :=
  inferInstanceAs (Decidable (_ ∧ _))

/-- `is_region_inside_aspace`. -/
def isRegionInsideAspace (a : Aspace w shift) (vaddr size : ℕ) : Prop :=
  isInsideAspace a vaddr ∧
    (size = 0 ∨ ¬lastW w vaddr size < vaddr ∧ ¬lastW w a.base a.size < lastW w vaddr size)

instance (a : Aspace w shift) (vaddr size : ℕ) : Decidable (isRegionInsideAspace a vaddr size) :=
  inferInstanceAs (Decidable (_ ∧ (_ ∨ _)))

/-- `trim_to_aspace`. -/
def trimToAspace (a : Aspace w shift) (vaddr size : ℕ) : ℕ :=
  if size = 0 then size
  else
    let offset := subW w vaddr a.base
    let size := if addW w offset size < offset then subW w (subW w (2 ^ w - 1) offset) 1 else size
    if subW w a.size 1 ≤ addW w offset size then subW w a.size offset else size

/-- The loop of `add_region_to_aspace`, from one region on. -/
def addRegionAfter (w : ℕ) (r : Region) : List Region → Option (List Region)
  | [] => none
  | last :: rest =>
    if lastW w last.base last.size < r.base ∧
        rest.head?.all (fun next => lastW w r.base r.size < next.base) then
      some (last :: r :: rest)
    else (addRegionAfter w r rest).map (last :: ·)

/-- `add_region_to_aspace`. -/
def addRegionToAspace (a : Aspace w shift) (r : Region) (l : List Region) :
    Except Status (List Region) :=
  if r.size = 0 ∨ ¬isRegionInsideAspace a r.base r.size then .error .outOfRange
  else if l.head?.all (fun last => lastW w r.base r.size < last.base) then .ok (r :: l)
  else
    match addRegionAfter w r l with
    | none => .error .noMemory
    | some l => .ok l

/-- What `check_gap` says: a spot, on to the next gap, or that the search is over. -/
inductive Check
  | found (pva : ℕ)
  | nextGap
  | notFound
  deriving DecidableEq

variable (pick : Gap → ℕ)

/-- `check_gap`. -/
def checkGap (a : Aspace w shift) (prev next : Option Region) (align size archMmuFlags : ℕ) :
    Check :=
  let gapBeg := prev.elim a.base fun prev => addW w prev.base prev.size
  let gapEnd := next.elim (lastW w a.base a.size) fun next => subW w next.base 1
  if next.any (fun next => gapBeg = next.base) then .nextGap
  else if next.isNone ∧ gapBeg = addW w a.base a.size then .notFound
  else
    let pva := pick ⟨gapBeg, prev.elim archMmuFlagInvalid Region.archMmuFlags, gapEnd,
      next.elim archMmuFlagInvalid Region.archMmuFlags, align, size, archMmuFlags⟩ % 2 ^ w
    if pva < gapBeg then .notFound  -- the address wrapped around
    else if pva < gapEnd ∧ size ≤ addW w (subW w gapEnd pva) 1 then .found pva
    else .nextGap

/-- The loop of `alloc_spot` from the region `prev` on: the spot and how many regions of the
list come before it. -/
def allocSpotAfter (a : Aspace w shift) (align size archMmuFlags : ℕ) :
    ℕ → List Region → Option (ℕ × ℕ)
  | _, [] => none
  | n, prev :: rest =>
    match checkGap pick a (some prev) rest.head? align size archMmuFlags with
    | .found spot => some (spot, n + 1)
    | .notFound => none
    | .nextGap => allocSpotAfter a align size archMmuFlags (n + 1) rest

/-- `alloc_spot`. -/
def allocSpot (a : Aspace w shift) (size alignPow2 archMmuFlags : ℕ) (l : List Region) :
    Option (ℕ × ℕ) :=
  let align := 2 ^ max alignPow2 shift % 2 ^ w
  match checkGap pick a none l.head? align size archMmuFlags with
  | .found spot => some (spot, 0)
  | .notFound => none
  | .nextGap => allocSpotAfter pick a align size archMmuFlags 0 l

/-- `alloc_region`: the region and the list with it. -/
def allocRegion (a : Aspace w shift) (calloc : Bool) (size vaddr alignPow2 : ℕ) (specific : Bool)
    (regionFlags archMmuFlags : ℕ) (l : List Region) : Option (Region × List Region) :=
  let r : Region := ⟨vaddr, size, regionFlags, archMmuFlags⟩
  if !calloc then none
  else if specific then (addRegionToAspace a r l).toOption.map fun l => (r, l)
  else
    (allocSpot pick a size alignPow2 archMmuFlags l).map fun spot =>
      let r := { r with base := spot.1 }
      (r, l.take spot.2 ++ r :: l.drop spot.2)

/-- The list after a call, what it returns and what `*ptr` is then. -/
structure Result where
  regions : List Region
  status : Status
  ptr : Option ℕ
  deriving DecidableEq

/-- `vmm_reserve_space`; `queried` are the flags `arch_mmu_query` leaves. -/
def vmmReserveSpace (a : Aspace w shift) (size vaddr queried : ℕ) (calloc : Bool)
    (l : List Region) : Result :=
  if size = 0 then ⟨l, .noError, none⟩
  else if vaddr % 2 ^ shift ≠ 0 ∨ size % 2 ^ shift ≠ 0 then ⟨l, .invalidArgs, none⟩
  else if ¬isInsideAspace a vaddr then ⟨l, .outOfRange, none⟩
  else
    match allocRegion pick a calloc (trimToAspace a vaddr size) vaddr 0 true regionFlagReserved
        queried l with
    | none => ⟨l, .noMemory, none⟩
    | some (_, l) => ⟨l, .noError, none⟩

/-- The end of the calls that allocate: the region goes into the list and its address to
`*ptr`. -/
def placeRegion (a : Aspace w shift) (size : ℕ) (ptr : Option ℕ) (alignPow2 : ℕ) (specific : Bool)
    (archMmuFlags : ℕ) (calloc : Bool) (l : List Region) : Result :=
  let vaddr := if specific then ptr.getD 0 else 0
  match allocRegion pick a calloc size vaddr alignPow2 specific regionFlagPhysical archMmuFlags l with
  | none => ⟨l, .noMemory, ptr⟩
  | some (r, l) => ⟨l, .noError, ptr.map fun _ => r.base⟩

/-- `vmm_alloc_physical`. -/
def vmmAllocPhysical (a : Aspace w shift) (size : ℕ) (ptr : Option ℕ) (alignLog2 paddr : ℕ)
    (specific : Bool) (archMmuFlags : ℕ) (calloc : Bool) (l : List Region) : Result :=
  if size = 0 then ⟨l, .noError, ptr⟩
  else if paddr % 2 ^ shift ≠ 0 ∨ size % 2 ^ shift ≠ 0 then ⟨l, .invalidArgs, ptr⟩
  else if specific ∧ ptr = none then ⟨l, .invalidArgs, ptr⟩
  else placeRegion pick a size ptr alignLog2 specific archMmuFlags calloc l

/-- `vmm_alloc_contiguous` and `vmm_alloc` up to the pages they take: `pages` says whether
there are enough. -/
def allocPages (a : Aspace w shift) (size : ℕ) (ptr : Option ℕ) (alignPow2 : ℕ) (specific : Bool)
    (archMmuFlags : ℕ) (pages calloc : Bool) (l : List Region) : Result :=
  let size := roundup w size (2 ^ shift)
  if size = 0 then ⟨l, .invalidArgs, ptr⟩
  else if specific ∧ ptr = none then ⟨l, .invalidArgs, ptr⟩
  else if !pages then ⟨l, .noMemory, ptr⟩
  else placeRegion pick a size ptr alignPow2 specific archMmuFlags calloc l

/-- `vmm_alloc_contiguous`. -/
def vmmAllocContiguous (a : Aspace w shift) (size : ℕ) (ptr : Option ℕ) (alignPow2 : ℕ)
    (specific : Bool) (archMmuFlags : ℕ) (pages calloc : Bool) (l : List Region) : Result :=
  allocPages pick a size ptr alignPow2 specific archMmuFlags pages calloc l

/-- `vmm_alloc`. -/
def vmmAlloc (a : Aspace w shift) (size : ℕ) (ptr : Option ℕ) (alignPow2 : ℕ)
    (specific : Bool) (archMmuFlags : ℕ) (pages calloc : Bool) (l : List Region) : Result :=
  allocPages pick a size ptr alignPow2 specific archMmuFlags pages calloc l

/-- `vmm_find_region`. -/
def vmmFindRegion (w vaddr : ℕ) (l : List Region) : Option Region :=
  l.find? fun r => r.base ≤ vaddr ∧ vaddr ≤ lastW w r.base r.size

/-- `vmm_free_region`. -/
def vmmFreeRegion (w vaddr : ℕ) (l : List Region) : Result :=
  match vmmFindRegion w vaddr l with
  | none => ⟨l, .notFound, none⟩
  | some r => ⟨l.erase r, .noError, none⟩

/-- The calls. -/
inductive Op
  | reserveSpace (size vaddr queried : ℕ) (calloc : Bool)
  | allocPhysical (size : ℕ) (ptr : Option ℕ) (alignLog2 paddr : ℕ) (specific : Bool)
      (archMmuFlags : ℕ) (calloc : Bool)
  | allocContiguous (size : ℕ) (ptr : Option ℕ) (alignPow2 : ℕ) (specific : Bool)
      (archMmuFlags : ℕ) (pages calloc : Bool)
  | alloc (size : ℕ) (ptr : Option ℕ) (alignPow2 : ℕ) (specific : Bool) (archMmuFlags : ℕ)
      (pages calloc : Bool)
  | freeRegion (vaddr : ℕ)

/-- One call.  Addresses and sizes are words. -/
def step (a : Aspace w shift) (l : List Region) : Op → Result
  | .reserveSpace size vaddr queried calloc =>
    vmmReserveSpace pick a (size % 2 ^ w) (vaddr % 2 ^ w) queried calloc l
  | .allocPhysical size ptr alignLog2 paddr specific archMmuFlags calloc =>
    vmmAllocPhysical pick a (size % 2 ^ w) (ptr.map (· % 2 ^ w)) alignLog2 (paddr % 2 ^ w)
      specific archMmuFlags calloc l
  | .allocContiguous size ptr alignPow2 specific archMmuFlags pages calloc =>
    vmmAllocContiguous pick a (size % 2 ^ w) (ptr.map (· % 2 ^ w)) alignPow2 specific
      archMmuFlags pages calloc l
  | .alloc size ptr alignPow2 specific archMmuFlags pages calloc =>
    vmmAlloc pick a (size % 2 ^ w) (ptr.map (· % 2 ^ w)) alignPow2 specific archMmuFlags pages
      calloc l
  | .freeRegion vaddr => vmmFreeRegion w (vaddr % 2 ^ w) l

/-- The list after a sequence of calls on a new address space. -/
def regions (a : Aspace w shift) (ops : List Op) : List Region :=
  ops.foldl (fun l op => (step pick a l op).regions) []

end Model

section Spec

variable {w shift : ℕ}

/-- **What a region list is owed**, in natural numbers. -/
structure WellFormed (a : Aspace w shift) (l : List Region) : Prop where
  sorted : l.Pairwise (·.base < ·.base)
  disjoint : l.Pairwise fun r q => ∀ v, ¬(r.base ≤ v ∧ v < r.base + r.size ∧
    q.base ≤ v ∧ v < q.base + q.size)
  pages : ∀ r ∈ l, 0 < r.size ∧ 2 ^ shift ∣ r.size
  inside : ∀ r ∈ l, a.base ≤ r.base ∧ r.base + r.size ≤ a.base + a.size

end Spec

section Invariant

variable {w shift : ℕ} {a : Aspace w shift} {l l₁ l₂ : List Region} {r : Region}

/-- The region may be in the list. -/
structure Fits (a : Aspace w shift) (r : Region) : Prop where
  size_pos : 0 < r.size
  size_dvd : 2 ^ shift ∣ r.size
  base_ge : a.base ≤ r.base
  end_le : r.base + r.size ≤ a.base + a.size

/-- **The invariant**: one region ends before the next begins. -/
structure Inv (a : Aspace w shift) (l : List Region) : Prop where
  fits : ∀ r ∈ l, Fits a r
  order : l.Pairwise fun r q => r.base + r.size ≤ q.base

theorem Inv.wellFormed (h : Inv a l) : WellFormed a l where
  sorted := by
    refine h.order.imp_of_mem fun {r q} hr _ hle => ?_
    have := (h.fits r hr).size_pos
    omega
  disjoint := h.order.imp fun {r q} hle v hv => by omega
  pages r hr := ⟨(h.fits r hr).size_pos, (h.fits r hr).size_dvd⟩
  inside r hr := ⟨(h.fits r hr).base_ge, (h.fits r hr).end_le⟩

theorem Inv.sublist (h : Inv a l) (hs : l₁.Sublist l) : Inv a l₁ :=
  ⟨fun r hr => h.fits r (hs.subset hr), h.order.sublist hs⟩

theorem Inv.tail (h : Inv a (r :: l)) : Inv a l := h.sublist (List.sublist_cons_self r l)

/-- A region is put where it belongs. -/
theorem Inv.insert (h : Inv a (l₁ ++ l₂)) (hr : Fits a r)
    (h₁ : ∀ q ∈ l₁, q.base + q.size ≤ r.base) (h₂ : ∀ q ∈ l₂, r.base + r.size ≤ q.base) :
    Inv a (l₁ ++ r :: l₂) := by
  obtain ⟨ho₁, ho₂, ho⟩ := List.pairwise_append.1 h.order
  refine ⟨fun q hq => ?_, List.pairwise_append.2 ⟨ho₁, List.pairwise_cons.2 ⟨h₂, ho₂⟩, ?_⟩⟩
  · rcases List.mem_append.1 hq with hq | hq
    · exact h.fits q (List.mem_append_left _ hq)
    · rcases List.mem_cons.1 hq with rfl | hq
      · exact hr
      · exact h.fits q (List.mem_append_right _ hq)
  · intro q hq q' hq'
    rcases List.mem_cons.1 hq' with rfl | hq'
    · exact h₁ q hq
    · exact ho q hq q' hq'

/-- Behind the head of the list come only later regions. -/
theorem Inv.forall_ge_of_head (h : Inv a l) {v : ℕ} (hv : ∀ q ∈ l.head?, v ≤ q.base) :
    ∀ q ∈ l, v ≤ q.base := by
  cases l with
  | nil => exact fun q hq => absurd hq List.not_mem_nil
  | cons q l =>
    intro q' hq'
    have hle := hv q rfl
    rcases List.mem_cons.1 hq' with rfl | hq'
    · exact hle
    · have := (List.pairwise_cons.1 h.order).1 q' hq'
      omega

theorem lastW_aspace (a : Aspace w shift) : lastW w a.base a.size = a.base + a.size - 1 :=
  lastW_of_le a.size_pos a.end_le

theorem Fits.last_eq (h : Fits a r) : lastW w r.base r.size = r.base + r.size - 1 :=
  lastW_of_le h.size_pos (by have := h.end_le; have := a.end_le; omega)

/-- `is_region_inside_aspace` sees a wrap-around. -/
theorem isRegionInsideAspace_iff {vaddr size : ℕ} (hv : vaddr < 2 ^ w) (hs : size < 2 ^ w)
    (hpos : 0 < size) : isRegionInsideAspace a vaddr size ↔
      a.base ≤ vaddr ∧ vaddr + size ≤ a.base + a.size := by
  have hend := a.end_le
  have hsize := a.size_pos
  rw [isRegionInsideAspace, isInsideAspace, lastW_aspace]
  rcases Nat.lt_or_ge (2 ^ w) (vaddr + size) with hover | hfit
  · have := lastW_lt_of_gt hv hs hover
    omega
  · have := lastW_of_le hpos hfit
    omega

/-- **The loop of `add_region_to_aspace`** puts the region between two parts of the list. -/
theorem addRegionAfter_spec (hr : Fits a r) :
    ∀ {l l' : List Region}, Inv a l → addRegionAfter w r l = some l' →
      ∃ l₁ l₂, l = l₁ ++ l₂ ∧ l' = l₁ ++ r :: l₂ ∧ l₁ ≠ [] ∧
        (∀ q ∈ l₁, q.base + q.size ≤ r.base) ∧ ∀ q ∈ l₂, r.base + r.size ≤ q.base := by
  intro l
  induction l with
  | nil => exact fun _ h => by cases h
  | cons last rest ih =>
    intro l' h hadd
    have hlast := h.fits last List.mem_cons_self
    rw [addRegionAfter] at hadd
    split_ifs at hadd with hspot
    · cases hadd
      rw [hlast.last_eq, hr.last_eq] at hspot
      have hpos := hlast.size_pos
      have hpos' := hr.size_pos
      refine ⟨[last], rest, rfl, rfl, by simp, fun q hq => ?_, ?_⟩
      · obtain rfl := List.mem_singleton.1 hq
        omega
      · refine h.tail.forall_ge_of_head fun q hq => ?_
        have := (Option.all_eq_true _ _).1 hspot.2 q hq
        simp only [decide_eq_true_eq] at this
        omega
    · obtain ⟨l'', hl'', rfl⟩ := Option.map_eq_some_iff.1 hadd
      obtain ⟨l₁, l₂, rfl, rfl, hne, h₁, h₂⟩ := ih h.tail hl''
      refine ⟨last :: l₁, l₂, rfl, rfl, by simp, fun q hq => ?_, h₂⟩
      rcases List.mem_cons.1 hq with rfl | hq
      · -- the region went behind a later one
        obtain ⟨q', hq'⟩ := List.exists_mem_of_ne_nil _ hne
        have := (List.pairwise_cons.1 h.order).1 q' (List.mem_append_left _ hq')
        have := h₁ q' hq'
        omega
      · exact h₁ q hq

/-- **`add_region_to_aspace`.** -/
theorem Inv.addRegionToAspace {l' : List Region} (h : Inv a l) (hbase : r.base < 2 ^ w)
    (hsize : r.size < 2 ^ w) (hdvd : 2 ^ shift ∣ r.size)
    (hadd : addRegionToAspace a r l = .ok l') : Inv a l' := by
  unfold Vmm.addRegionToAspace at hadd
  by_cases hrange : r.size = 0 ∨ ¬isRegionInsideAspace a r.base r.size
  · rw [if_pos hrange] at hadd
    cases hadd
  rw [if_neg hrange] at hadd
  rw [not_or, not_not] at hrange
  have hpos : 0 < r.size := by omega
  obtain ⟨hge, hle⟩ := (isRegionInsideAspace_iff hbase hsize hpos).1 hrange.2
  have hr : Fits a r := ⟨hpos, hdvd, hge, hle⟩
  split_ifs at hadd with hfront
  · obtain rfl := Except.ok.inj hadd
    have hfirst : ∀ q ∈ l, r.base + r.size ≤ q.base := by
      refine h.forall_ge_of_head fun q hq => ?_
      have := (Option.all_eq_true _ _).1 hfront q hq
      simp only [hr.last_eq, decide_eq_true_eq] at this
      omega
    exact Inv.insert (show Inv a ([] ++ l) from h) hr (by simp) hfirst
  · split at hadd
    · cases hadd
    · rename_i l'' hl''
      obtain rfl := Except.ok.inj hadd
      obtain ⟨l₁, l₂, rfl, rfl, -, h₁, h₂⟩ := addRegionAfter_spec hr h hl''
      exact h.insert hr h₁ h₂

variable {pick : Gap → ℕ} {align size archMmuFlags : ℕ}

/-- **A spot that `check_gap` finds lies in the gap.**  Where the gap begins at the top of
the address range, `gap_beg` is 0 and so is the end of the address space. -/
theorem checkGap_found {prev next : Option Region} {pva : ℕ} (hsize : size < 2 ^ w)
    (hprev : ∀ q ∈ prev, Fits a q) (hnext : ∀ q ∈ next, Fits a q)
    (horder : ∀ q ∈ prev, ∀ q' ∈ next, q.base + q.size ≤ q'.base)
    (hfound : checkGap pick a prev next align size archMmuFlags = .found pva) :
    a.base ≤ pva ∧ pva + size ≤ a.base + a.size ∧ (∀ q ∈ prev, q.base + q.size ≤ pva) ∧
      ∀ q ∈ next, pva + size ≤ q.base := by
  have hend := a.end_le
  have hasize := a.size_pos
  unfold checkGap at hfound
  simp only [lastW_aspace] at hfound
  generalize hbeg : (prev.elim a.base fun prev => addW w prev.base prev.size) = gapBeg at hfound
  generalize hlast : (next.elim (a.base + a.size - 1) fun next => subW w next.base 1) = gapEnd
    at hfound
  split_ifs at hfound with hnone hover hwrap hroom
  obtain rfl := Check.found.inj hfound
  have hbeg' : a.base ≤ gapBeg ∧ ∀ q ∈ prev, q.base + q.size ≤ gapBeg := by
    cases prev with
    | none => exact ⟨hbeg.le, fun q hq => by cases hq⟩
    | some q =>
      have hq := hprev q rfl
      have h₁ := hq.end_le
      have h₂ := hq.base_ge
      simp only [Option.elim_some] at hbeg
      rcases Nat.lt_or_ge (q.base + q.size) (2 ^ w) with hlt | hge
      · rw [addW_of_lt hlt] at hbeg
        refine ⟨by omega, fun q' hq' => ?_⟩
        cases hq'
        omega
      · -- the region before the gap ends at the top, and so does the address space
        have hzero : addW w a.base a.size = gapBeg := by
          rw [← hbeg, show a.base = q.base + q.size - a.size by omega, addW, addW]
          congr 1
          omega
        cases next with
        | none => exact absurd ⟨rfl, hzero.symm⟩ hover
        | some q' =>
          have := horder q rfl q' rfl
          have := (hnext q' rfl).end_le
          have := (hnext q' rfl).size_pos
          omega
  have hlast' : gapEnd + 1 ≤ a.base + a.size ∧ ∀ q ∈ next, gapEnd + 1 = q.base := by
    cases next with
    | none =>
      simp only [Option.elim_none] at hlast
      exact ⟨by omega, fun q hq => by cases hq⟩
    | some q =>
      have hq := hnext q rfl
      have h₁ := hq.end_le
      have h₂ := hq.base_ge
      simp only [Option.any_some, decide_eq_true_eq, Option.elim_some] at hnone hlast
      have hle : gapBeg ≤ q.base := by
        cases prev with
        | none => exact hbeg ▸ h₂
        | some q' =>
          have := horder q' rfl q rfl
          simp only [Option.elim_some] at hbeg
          rw [addW_of_lt (by have := hq.size_pos; omega)] at hbeg
          omega
      rw [subW_of_le (by have := hq.size_pos; omega) (by omega)] at hlast
      refine ⟨by omega, fun q' hq' => ?_⟩
      cases hq'
      omega
  generalize pick _ % 2 ^ w = pva at hwrap hroom ⊢
  have hfit : pva + size ≤ gapEnd + 1 := by
    have h := hroom.2
    rw [subW_of_le (by omega) hroom.1.le] at h
    rcases Nat.lt_or_ge (gapEnd - pva + 1) (2 ^ w) with hlt | hge
    · rw [addW_of_lt hlt] at h
      omega
    · omega
  refine ⟨by omega, by omega, fun q hq => ?_, fun q hq => ?_⟩
  · have := hbeg'.2 q hq
    omega
  · have := hlast'.2 q hq
    omega

/-- **The loop of `alloc_spot`** finds a spot between two parts of the list. -/
theorem allocSpotAfter_spec (hsize : size < 2 ^ w) {spot k : ℕ} :
    ∀ {l : List Region} {n : ℕ}, Inv a l →
      allocSpotAfter pick a align size archMmuFlags n l = some (spot, k) →
      ∃ l₁ l₂, l = l₁ ++ l₂ ∧ k = n + l₁.length ∧ l₁ ≠ [] ∧ a.base ≤ spot ∧
        spot + size ≤ a.base + a.size ∧ (∀ q ∈ l₁, q.base + q.size ≤ spot) ∧
        ∀ q ∈ l₂, spot + size ≤ q.base := by
  intro l
  induction l with
  | nil => exact fun _ h => by cases h
  | cons prev rest ih =>
    intro n h hspot
    obtain ⟨hprev, hrest⟩ := List.pairwise_cons.1 h.order
    rw [allocSpotAfter] at hspot
    split at hspot
    · rename_i pva hfound
      cases hspot
      have hhead : ∀ q ∈ rest.head?, q ∈ rest := fun q hq => List.mem_of_mem_head? hq
      obtain ⟨hge, hle, hbefore, hafter⟩ := checkGap_found hsize
        (fun q hq => by obtain rfl := Option.some.inj hq; exact h.fits _ List.mem_cons_self)
        (fun q hq => h.fits q (List.mem_cons_of_mem _ (hhead q hq)))
        (fun q hq q' hq' => by obtain rfl := Option.some.inj hq; exact hprev q' (hhead q' hq'))
        hfound
      refine ⟨[prev], rest, rfl, rfl, by simp, hge, hle, fun q hq => ?_,
        h.tail.forall_ge_of_head hafter⟩
      obtain rfl := List.mem_singleton.1 hq
      exact hbefore _ rfl
    · cases hspot
    · obtain ⟨l₁, l₂, rfl, rfl, hne, hge, hle, h₁, h₂⟩ := ih h.tail hspot
      refine ⟨prev :: l₁, l₂, rfl, by simp only [List.length_cons]; omega, by simp, hge, hle,
        fun q hq => ?_, h₂⟩
      rcases List.mem_cons.1 hq with rfl | hq
      · obtain ⟨q', hq'⟩ := List.exists_mem_of_ne_nil _ hne
        have := hprev q' (List.mem_append_left _ hq')
        have := h₁ q' hq'
        omega
      · exact h₁ q hq

/-- **`alloc_spot`.** -/
theorem allocSpot_spec (h : Inv a l) (hsize : size < 2 ^ w) {alignPow2 spot k : ℕ}
    (hspot : allocSpot pick a size alignPow2 archMmuFlags l = some (spot, k)) :
    a.base ≤ spot ∧ spot + size ≤ a.base + a.size ∧ (∀ q ∈ l.take k, q.base + q.size ≤ spot) ∧
      ∀ q ∈ l.drop k, spot + size ≤ q.base := by
  unfold allocSpot at hspot
  simp only at hspot
  split at hspot
  · rename_i pva hfound
    cases hspot
    obtain ⟨hge, hle, -, hafter⟩ := checkGap_found hsize (fun q hq => by cases hq)
      (fun q hq => h.fits q (List.mem_of_mem_head? hq)) (fun q hq => by cases hq) hfound
    exact ⟨hge, hle, by simp, h.forall_ge_of_head hafter⟩
  · cases hspot
  · obtain ⟨l₁, l₂, rfl, rfl, -, hge, hle, h₁, h₂⟩ := allocSpotAfter_spec hsize h hspot
    rw [Nat.zero_add, List.take_left, List.drop_left]
    exact ⟨hge, hle, h₁, h₂⟩

/-- **`alloc_region`.** -/
theorem Inv.allocRegion {l' : List Region} {calloc specific : Bool}
    {vaddr alignPow2 regionFlags : ℕ} (h : Inv a l) (hv : vaddr < 2 ^ w) (hsize : size < 2 ^ w)
    (hdvd : 2 ^ shift ∣ size) (hpos : specific = false → 0 < size)
    (halloc : allocRegion pick a calloc size vaddr alignPow2 specific regionFlags archMmuFlags l =
      some (r, l')) : Inv a l' := by
  unfold Vmm.allocRegion at halloc
  simp only at halloc
  split_ifs at halloc with hcalloc hspecific
  · obtain ⟨l'', hl'', he⟩ := Option.map_eq_some_iff.1 halloc
    obtain ⟨rfl, rfl⟩ := Prod.mk.inj he
    cases hadd : Vmm.addRegionToAspace a ⟨vaddr, size, regionFlags, archMmuFlags⟩ l with
    | error e =>
      rw [hadd] at hl''
      cases hl''
    | ok l₀ =>
      rw [hadd] at hl''
      cases hl''
      exact h.addRegionToAspace hv hsize hdvd hadd
  · obtain ⟨⟨spot, k⟩, hspot, he⟩ := Option.map_eq_some_iff.1 halloc
    obtain ⟨rfl, rfl⟩ := Prod.mk.inj he
    have hpos := hpos (by simpa using hspecific)
    obtain ⟨hge, hle, h₁, h₂⟩ := allocSpot_spec h hsize hspot
    exact Inv.insert (by rw [List.take_append_drop]; exact h) ⟨hpos, hdvd, hge, hle⟩ h₁ h₂

/-- **`trim_to_aspace`** leaves whole pages. -/
theorem trimToAspace_spec {vaddr : ℕ} (hin : isInsideAspace a vaddr) (hv : 2 ^ shift ∣ vaddr)
    (hsize : size < 2 ^ w) (hdvd : 2 ^ shift ∣ size) :
    trimToAspace a vaddr size < 2 ^ w ∧ 2 ^ shift ∣ trimToAspace a vaddr size := by
  have hend := a.end_le
  have halt := a.size_lt
  rw [isInsideAspace, lastW_aspace] at hin
  have hoffset : subW w vaddr a.base = vaddr - a.base := subW_of_le (by omega) hin.1
  have hrest : subW w a.size (vaddr - a.base) = a.size - (vaddr - a.base) :=
    subW_of_le halt (by omega)
  have hrest' : 2 ^ shift ∣ a.size - (vaddr - a.base) :=
    Nat.dvd_sub a.size_dvd (Nat.dvd_sub hv a.base_dvd)
  unfold trimToAspace
  simp only [hoffset, hrest]
  by_cases hzero : size = 0
  · rw [if_pos hzero]
    exact ⟨hsize, hdvd⟩
  rw [if_neg hzero]
  by_cases hover : addW w (vaddr - a.base) size < vaddr - a.base
  · -- the size that stands for "up to the top" is trimmed again
    have htop : subW w (subW w (2 ^ w - 1) (vaddr - a.base)) 1 = 2 ^ w - 2 - (vaddr - a.base) := by
      rw [subW_of_le (show 2 ^ w - 1 < 2 ^ w by omega) (by omega),
        subW_of_le (by omega) (by omega)]
      omega
    rw [if_pos hover, htop, addW_of_lt (by omega), subW_of_le halt (by omega), if_pos (by omega)]
    exact ⟨by omega, hrest'⟩
  · rw [if_neg hover]
    split_ifs
    · exact ⟨by omega, hrest'⟩
    · exact ⟨hsize, hdvd⟩

theorem Inv.vmmReserveSpace {vaddr queried : ℕ} {calloc : Bool} (h : Inv a l) (hv : vaddr < 2 ^ w)
    (hsize : size < 2 ^ w) :
    Inv a (vmmReserveSpace pick a size vaddr queried calloc l).regions := by
  unfold Vmm.vmmReserveSpace
  split_ifs with hzero halign hin
  · exact h
  · exact h
  · rw [not_or, not_not, not_not] at halign
    obtain ⟨hlt, hdvd⟩ := trimToAspace_spec hin (Nat.dvd_of_mod_eq_zero halign.1) hsize
      (Nat.dvd_of_mod_eq_zero halign.2)
    split
    · exact h
    · rename_i r l' halloc
      exact h.allocRegion hv hlt hdvd (fun hs => by cases hs) halloc
  · exact h

variable {ptr : Option ℕ}

theorem Inv.placeRegion {alignPow2 : ℕ} {specific calloc : Bool} (h : Inv a l)
    (hptr : ∀ v ∈ ptr, v < 2 ^ w) (hsize : size < 2 ^ w) (hpos : 0 < size)
    (hdvd : 2 ^ shift ∣ size) :
    Inv a (placeRegion pick a size ptr alignPow2 specific archMmuFlags calloc l).regions := by
  have hv : (if specific = true then ptr.getD 0 else 0) < 2 ^ w := by
    split_ifs
    · cases ptr with
      | none => exact Nat.two_pow_pos w
      | some v => exact hptr v rfl
    · exact Nat.two_pow_pos w
  unfold Vmm.placeRegion
  simp only
  split
  · exact h
  · rename_i r l' halloc
    exact h.allocRegion hv hsize hdvd (fun _ => hpos) halloc

theorem Inv.vmmAllocPhysical {alignLog2 paddr : ℕ} {specific calloc : Bool}
    (h : Inv a l) (hptr : ∀ v ∈ ptr, v < 2 ^ w) (hsize : size < 2 ^ w) :
    Inv a (vmmAllocPhysical pick a size ptr alignLog2 paddr specific archMmuFlags calloc
      l).regions := by
  unfold Vmm.vmmAllocPhysical
  split_ifs with hzero halign hnull
  · exact h
  · exact h
  · exact h
  · rw [not_or, not_not, not_not] at halign
    exact h.placeRegion hptr hsize (by omega) (Nat.dvd_of_mod_eq_zero halign.2)

theorem Inv.allocPages {alignPow2 : ℕ} {specific pages calloc : Bool}
    (h : Inv a l) (hptr : ∀ v ∈ ptr, v < 2 ^ w) :
    Inv a (allocPages pick a size ptr alignPow2 specific archMmuFlags pages calloc l).regions := by
  have hround : roundup w size (2 ^ shift) < 2 ^ w :=
    (Nat.div_mul_le_self _ _).trans_lt (Nat.mod_lt _ (Nat.two_pow_pos w))
  unfold Vmm.allocPages
  simp only
  split_ifs with hzero hnull hpages
  · exact h
  · exact h
  · exact h
  · exact h.placeRegion hptr hround (by omega) (Dvd.intro_left _ rfl)

theorem Inv.vmmFreeRegion {vaddr : ℕ} (h : Inv a l) : Inv a (vmmFreeRegion w vaddr l).regions := by
  unfold Vmm.vmmFreeRegion
  split
  · exact h
  · exact h.sublist List.erase_sublist

theorem inv_step (h : Inv a l) (op : Op) : Inv a (step pick a l op).regions := by
  have hword : ∀ x, x % 2 ^ w < 2 ^ w := fun x => Nat.mod_lt x (Nat.two_pow_pos w)
  have hptr : ∀ ptr : Option ℕ, ∀ v ∈ ptr.map (· % 2 ^ w), v < 2 ^ w := by
    intro ptr v hv
    obtain ⟨x, -, rfl⟩ := Option.map_eq_some_iff.1 hv
    exact hword x
  cases op with
  | reserveSpace size vaddr queried calloc => exact h.vmmReserveSpace (hword _) (hword _)
  | allocPhysical size ptr alignLog2 paddr specific archMmuFlags calloc =>
    exact h.vmmAllocPhysical (hptr ptr) (hword _)
  | allocContiguous size ptr alignPow2 specific archMmuFlags pages calloc =>
    exact h.allocPages (hptr ptr)
  | alloc size ptr alignPow2 specific archMmuFlags pages calloc => exact h.allocPages (hptr ptr)
  | freeRegion vaddr => exact h.vmmFreeRegion

theorem inv_foldl (ops : List Op) :
    ∀ {l}, Inv a l → Inv a (ops.foldl (fun l op => (step pick a l op).regions) l) := by
  induction ops with
  | nil => exact fun h => h
  | cons op ops ih => exact fun h => ih (inv_step h op)

/-- **The region list is well formed** after every sequence of calls, whatever
`arch_mmu_pick_spot` answers and wherever the address space lies. -/
theorem region_list_wellFormed (a : Aspace w shift) (pick : Gap → ℕ) (ops : List Op) :
    WellFormed a (regions pick a ops) :=
  (inv_foldl ops ⟨fun _ hr => absurd hr List.not_mem_nil, List.Pairwise.nil⟩).wellFormed

end Invariant

section Map

variable {w shift : ℕ} {a : Aspace w shift} {pick : Gap → ℕ} {l l' : List Region} {r : Region}

/-- The address is in the region. -/
abbrev Region.Has (r : Region) (v : ℕ) : Prop := r.base ≤ v ∧ v < r.base + r.size

/-- The size that a call asks for. -/
def Op.size : Op → Option ℕ
  | .reserveSpace size .. | .allocPhysical size .. => some size
  | .allocContiguous size .. | .alloc size .. => some size
  | .freeRegion _ => none

/-- The region is the one that a call asks for: a reservation fixes all of it, an allocation
its size and flags, and its base where the caller gives the address. -/
def Op.Asks (a : Aspace w shift) : Op → Region → Prop
  | .reserveSpace size vaddr queried _, r =>
    r = ⟨vaddr % 2 ^ w, trimToAspace a (vaddr % 2 ^ w) (size % 2 ^ w), regionFlagReserved, queried⟩
  | .allocPhysical size ptr _ _ specific archMmuFlags _, r =>
    r = ⟨r.base, size % 2 ^ w, regionFlagPhysical, archMmuFlags⟩ ∧
      (specific → ∀ p ∈ ptr, r.base = p % 2 ^ w)
  | .allocContiguous size ptr _ specific archMmuFlags .., r
  | .alloc size ptr _ specific archMmuFlags .., r =>
    r = ⟨r.base, roundup w (size % 2 ^ w) (2 ^ shift), regionFlagPhysical, archMmuFlags⟩ ∧
      (specific → ∀ p ∈ ptr, r.base = p % 2 ^ w)
  | .freeRegion _, _ => False

/-- **What a call does to the map from addresses to regions**, and what it answers. -/
inductive Does (a : Aspace w shift) (f : ℕ → Option Region) :
    Op → Status → Option ℕ → (ℕ → Option Region) → Prop
  | nothing {op size status ptr} (hop : op.size = some size)
      (h : status = .noError → size % 2 ^ w = 0) : Does a f op status ptr f
  | region {op ptr} {r : Region} (hop : op.Asks a r) (hptr : ∀ p ∈ ptr, p = r.base)
      (hpos : 0 < r.size) (hfree : ∀ v, r.Has v → f v = none) :
      Does a f op .noError ptr fun v => if r.Has v then some r else f v
  | notFound {vaddr} (h : f (vaddr % 2 ^ w) = none) : Does a f (.freeRegion vaddr) .notFound none f
  | free {vaddr r} (h : f (vaddr % 2 ^ w) = some r) :
      Does a f (.freeRegion vaddr) .noError none fun v => if r.Has v then none else f v

theorem Inv.find_eq (h : Inv a l) (v : ℕ) :
    vmmFindRegion w v l = l.find? fun q => decide (q.Has v) :=
  List.find?_congr fun q hq => by
    have := (h.fits q hq).size_pos
    rw [(h.fits q hq).last_eq]
    exact decide_eq_decide.2 (by omega)

/-- A region is found at its addresses, and without it nothing is. -/
theorem Inv.find_perm (h : Inv a l) (h' : Inv a l') (hp : l.Perm (r :: l')) (v : ℕ) :
    vmmFindRegion w v l = (if r.Has v then some r else vmmFindRegion w v l') ∧
      (r.Has v → vmmFindRegion w v l' = none) := by
  have hsymm : Std.Symm fun p q : Region => ¬(p.Has v ∧ q.Has v) := ⟨fun _ _ h h' => h h'.symm⟩
  have hapart : l.Pairwise fun p q => ¬(p.Has v ∧ q.Has v) := h.order.imp fun hle hv => by omega
  have hone : {q ∈ l | decide (q.Has v) = true}.Subsingleton := fun p hp q hq =>
    by_contra fun hne =>
      hapart.forall hp.1 hq.1 hne ⟨of_decide_eq_true hp.2, of_decide_eq_true hq.2⟩
  rw [h.find_eq, h'.find_eq, List.find?_eq_find?_of_perm hp hone]
  refine ⟨?_, fun hv => List.find?_eq_none.2 fun q hq hqv =>
    (List.pairwise_cons.1 (hp.pairwise hapart (hsymm.symm _ _))).1 q hq
      ⟨hv, of_decide_eq_true hqv⟩⟩
  split_ifs with hv
  · exact List.find?_cons_of_pos (decide_eq_true hv)
  · exact List.find?_cons_of_neg (by simpa using hv)

theorem perm_addRegionAfter (h : addRegionAfter w r l = some l') : l'.Perm (r :: l) := by
  induction l generalizing l' with
  | nil => cases h
  | cons last rest ih =>
    rw [addRegionAfter] at h
    split_ifs at h
    · cases h
      exact .swap r last rest
    · obtain ⟨l₀, hl₀, rfl⟩ := Option.map_eq_some_iff.1 h
      exact ((ih hl₀).cons last).trans (.swap r last rest)

theorem perm_allocRegion {calloc specific : Bool} {size vaddr align flags archFlags : ℕ}
    (h : allocRegion pick a calloc size vaddr align specific flags archFlags l = some (r, l')) :
    l'.Perm (r :: l) := by
  unfold Vmm.allocRegion addRegionToAspace at h
  simp only at h
  split_ifs at h
  · cases h
  · cases h
    rfl
  · obtain ⟨l₀, hadd, he⟩ := Option.map_eq_some_iff.1 h
    cases he
    split at hadd
    · cases hadd
    · rename_i hafter
      cases hadd
      exact perm_addRegionAfter hafter
  · obtain ⟨spot, -, he⟩ := Option.map_eq_some_iff.1 h
    cases he
    exact List.perm_middle.trans (by rw [List.take_append_drop])

/-- The region of `alloc_region` has what it was called with. -/
theorem allocRegion_region {calloc specific : Bool} {size vaddr align flags archFlags : ℕ}
    (h : allocRegion pick a calloc size vaddr align specific flags archFlags l = some (r, l')) :
    r = ⟨r.base, size, flags, archFlags⟩ ∧ (specific → r.base = vaddr) := by
  unfold Vmm.allocRegion at h
  simp only at h
  split_ifs at h with hcalloc hspecific
  · obtain ⟨l₀, -, he⟩ := Option.map_eq_some_iff.1 h
    cases he
    exact ⟨rfl, fun _ => rfl⟩
  · obtain ⟨spot, -, he⟩ := Option.map_eq_some_iff.1 h
    cases he
    exact ⟨rfl, fun hs => absurd hs hspecific⟩

theorem Inv.does_region (h : Inv a l) (h' : Inv a l') (hp : l'.Perm (r :: l)) {op : Op}
    {ptr : Option ℕ} (hop : op.Asks a r) (hptr : ∀ p ∈ ptr, p = r.base) :
    Does a (vmmFindRegion w · l) op .noError ptr (vmmFindRegion w · l') := by
  rw [funext fun v => (h'.find_perm h hp v).1]
  exact .region hop hptr (h'.fits r (hp.mem_iff.2 List.mem_cons_self)).size_pos
    fun v => (h'.find_perm h hp v).2

theorem Inv.does_free (h : Inv a l) {vaddr : ℕ} (hr : vmmFindRegion w (vaddr % 2 ^ w) l = some r) :
    Does a (vmmFindRegion w · l) (.freeRegion vaddr) .noError none
      (vmmFindRegion w · (l.erase r)) := by
  have hfind (v : ℕ) : vmmFindRegion w v (l.erase r) =
      if r.Has v then none else vmmFindRegion w v l := by
    obtain ⟨hin, hout⟩ := h.find_perm (h.sublist List.erase_sublist)
      (List.perm_cons_erase (List.mem_of_find?_eq_some hr)) v
    split_ifs with hv
    · exact hout hv
    · rw [hin, if_neg hv]
  rw [funext hfind]
  exact .free hr

/-- **The region list is a map from addresses to regions:** in every state that calls reach from
a new address space, the next call adds the region it asks for, at addresses that no other
region has, or takes away the one at its address, or leaves the map as it was (`Does`). -/
theorem step_does (a : Aspace w shift) (pick : Gap → ℕ) (ops : List Op) (op : Op) :
    Does a (vmmFindRegion w · (regions pick a ops)) op
      (step pick a (regions pick a ops) op).status (step pick a (regions pick a ops) op).ptr
      (vmmFindRegion w · (step pick a (regions pick a ops) op).regions) := by
  have h : Inv a (regions pick a ops) :=
    inv_foldl ops ⟨fun _ hr => absurd hr List.not_mem_nil, List.Pairwise.nil⟩
  generalize regions pick a ops = l at h
  have h' : Inv a (step pick a l op).regions := inv_step h op
  cases op <;>
    simp only [step, vmmReserveSpace, vmmAllocPhysical, vmmAllocContiguous, vmmAlloc, allocPages,
      placeRegion] at h' ⊢
  case freeRegion vaddr =>
    rw [vmmFreeRegion]
    split
    · rename_i hnone
      exact .notFound hnone
    · rename_i r hr
      exact h.does_free hr
  -- the calls that allocate: what they refuse, and the region they place
  all_goals
    split_ifs at h' ⊢ <;> try exact .nothing rfl fun h => by first | assumption | cases h
  all_goals
    generalize hx : allocRegion _ _ _ _ _ _ _ _ _ _ = x at h' ⊢
    rcases x with _ | ⟨r, l'⟩
    · exact .nothing rfl fun h => by cases h
    · refine h.does_region h' (perm_allocRegion hx) ?_ fun p hp => ?_
      · obtain ⟨hr, hbase⟩ := allocRegion_region hx
        first
          | rw [hbase rfl] at hr
            exact hr
          | exact ⟨hr, fun hs p hp => by simpa [Option.mem_def.1 hp] using hbase hs⟩
          | exact ⟨hr, fun hs => absurd hs ‹_›⟩
      · first
          | cases hp
          | obtain ⟨_, -, rfl⟩ := Option.map_eq_some_iff.1 hp
            rfl

end Map

/-- The kernel address space of arm64, up to the top of the address range. -/
def kernelAspace : Aspace 64 12 where
  base := 0xffff000000000000
  size := 0x0001000000000000
  size_pos := by decide
  size_lt := by decide
  end_le := by decide
  base_dvd := by decide
  size_dvd := by decide

/-- The last page, the page before it, and the first one; nothing fits behind the top. -/
example : (regions (archMmuPickSpot 64) kernelAspace
    [.alloc 1 (some 0xfffffffffffff000) 0 true 0 true true,
      .allocPhysical 0x1000 (some 0xffffffffffffe000) 0 0 true 0 true,
      .allocContiguous 0x2000 none 0 false 0 true true,
      .alloc 0x0000fffffffff000 none 0 false 0 true true]).map (fun r => (r.base, r.size)) =
    [(0xffff000000000000, 0x2000), (0xffffffffffffe000, 0x1000),
      (0xfffffffffffff000, 0x1000)] := by decide

end Vmm
end LittleKernel
