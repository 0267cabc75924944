/-
# Whether the page allocator finds what is there

`pmm_alloc_contiguous` and `pmm_alloc_pages` of `kernel/vm/pmm.c` against what they are
for: a run of free pages at an aligned address if an arena has one, and as many pages as
are asked for or as there are.

Both hold under a condition, and only then.  `pmm_alloc_pages` leaves for `done` with the
first arena that runs out, so the later arenas count for nothing.  The position of the
search in `pmm_alloc_contiguous` and `start + count` are 32-bit numbers: where the first
wraps the search starts over and has no end, and where the second wraps it goes on behind
the page array, or hands out a run it does not mark.

The search goes from a boundary to the next one behind a page that is not free
(`jump_eq`), so it never steps over a run, and the boundaries it tries are those with such a
page behind every earlier one (`Tried`).
-/

import LittleKernel.Kernel.Pmm.Calls

namespace LittleKernel
namespace Pmm

open Word

/-! ### What the calls are for -/

/-- The page at index `i` has an address that is a multiple of `1UL << alignmentLog2`. -/
def Arena.Boundary (a : Arena) (alignmentLog2 i : ℕ) : Prop :=
  2 ^ alignmentLog2 ∣ a.base + i * pageSize

/-- `count` free pages of the arena from index `i` on, the first at an aligned address. -/
structure AlignedRun (s : State) (a : Arena) (count alignmentLog2 i : ℕ) : Prop where
  inside : i + count ≤ a.pageCount
  aligned : a.Boundary alignmentLog2 i
  free : ∀ j < count, s.nonfree (a.page (i + j)) = false

/-- The allocator with exactly the pages `ps` taken out. -/
structure Marks (s : State) (ps : List ℕ) (s' : State) : Prop where
  arenas : SameArenas s s'
  nonfree : ∀ p, s'.nonfree p = true ↔ p ∈ ps ∨ s.nonfree p = true
  freeList : ∀ a, (s'.arena a).freeList = (s.arena a).freeList.filter fun p => p ∉ ps
  freeCount : ∀ a ∈ s.arenaList, (s'.arena a).freeCount = (s'.arena a).freeList.length

/-- `pmm_alloc_contiguous` hands out a run if an arena has one, and else does nothing. -/
structure ContiguousExact (s : State) (count alignmentLog2 : ℕ) : Prop where
  found : (∃ a ∈ s.arenaList, (s.arena a).kmap = true ∧
      ∃ i, AlignedRun s (s.arena a) count alignmentLog2 i) →
    ∃ a ∈ s.arenaList, (s.arena a).kmap = true ∧
      ∃ i, AlignedRun s (s.arena a) count alignmentLog2 i ∧ ∃ s',
        pmmAllocContiguous s count alignmentLog2 =
          some (s', some ⟨(s.arena a).run i count, (s.arena a).base + i * pageSize⟩) ∧
        Marks s ((s.arena a).run i count) s'
  refused : (∀ a ∈ s.arenaList, (s.arena a).kmap = true →
      ∀ i, ¬AlignedRun s (s.arena a) count alignmentLog2 i) →
    pmmAllocContiguous s count alignmentLog2 = some (s, none)

/-- How many pages of the arena are free. -/
def State.freePages (s : State) (a : ℕ) : ℕ :=
  (List.range (s.arena a).pageCount).countP fun i => !s.nonfree ((s.arena a).page i)

/-- `pmm_alloc_pages` returns as many pages as are asked for, or as there are. -/
def PagesExact (s : State) (count : ℕ) : Prop :=
  (pmmAllocPages s count).2.length = min count (s.arenaList.map s.freePages).sum

/-- Both calls do what they are for. -/
def Exact (s : State) (count alignmentLog2 : ℕ) : Prop :=
  ContiguousExact s count alignmentLog2 ∧ PagesExact s count

/-! ### When they do it -/

/-- The search tries the boundary `c`, unless it ends before: a page of the arena that is not
free lies between every earlier boundary and `c`. -/
structure Tried (s : State) (a : Arena) (alignmentLog2 c : ℕ) : Prop where
  aligned : a.Boundary alignmentLog2 c
  broken : ∀ b < c, a.Boundary alignmentLog2 b →
    ∃ q, b ≤ q ∧ q < c ∧ q < a.pageCount ∧ s.nonfree (a.page q) = true

/-- A boundary the search tries, and where it stops: at the end of the arena or too close to
it, and `start + count` does not wrap there. -/
structure Stops (s : State) (a : Arena) (count alignmentLog2 c : ℕ) : Prop where
  tried : Tried s a alignmentLog2 c
  lt : c < 2 ^ 32
  short : a.pageCount ≤ c ∨ (a.pageCount < c + count ∧ c + count < 2 ^ 32)

/-- The 32-bit positions suffice for the arena: it has a run that ends below the page
`2 ^ 32`, or it has none, and no aligned page or a boundary where the search stops. -/
def Arena.Suffices (s : State) (a : Arena) (count alignmentLog2 : ℕ) : Prop :=
  (∃ i, AlignedRun s a count alignmentLog2 i ∧ i + count < 2 ^ 32) ∨
    ((∀ i, ¬AlignedRun s a count alignmentLog2 i) ∧
      ((∀ i < a.pageCount, ¬a.Boundary alignmentLog2 i) ∨ ∃ c, Stops s a count alignmentLog2 c))

/-- The positions suffice for every arena of `l` that is searched, up to the first with a
run. -/
def SearchSuffices (s : State) (count alignmentLog2 : ℕ) (l : List ℕ) : Prop :=
  ∀ as a bs, l = as ++ a :: bs → (s.arena a).kmap = true →
    (∀ b ∈ as, (s.arena b).kmap = true → ∀ i, ¬AlignedRun s (s.arena b) count alignmentLog2 i) →
    (s.arena a).Suffices s count alignmentLog2

/-- The first arena has all the pages asked for, or all the free pages there are. -/
def FirstSuffices (s : State) (count : ℕ) : Prop :=
  ∀ a as, s.arenaList = a :: as → count ≤ s.freePages a ∨ ∀ b ∈ as, s.freePages b = 0

/-! ### Boundaries -/

/-- The distance of two boundaries, in pages. -/
def stride (alignmentLog2 : ℕ) : ℕ := 2 ^ (max alignmentLog2 pageSizeShift - pageSizeShift)

/-- The index of the first boundary; it may lie behind the arena. -/
def Arena.firstBoundary (a : Arena) (alignmentLog2 : ℕ) : ℕ :=
  (stride alignmentLog2 - a.base / pageSize % stride alignmentLog2) % stride alignmentLog2

section Boundary

variable {a : Arena} {al : ℕ}

theorem stride_pos (al : ℕ) : 0 < stride al := Nat.two_pow_pos _

theorem stride_mul_pageSize (al : ℕ) : stride al * pageSize = 2 ^ max al pageSizeShift := by
  rw [stride, show pageSize = 2 ^ pageSizeShift from rfl, ← pow_add,
    Nat.sub_add_cancel (le_max_right _ _)]

/-- The rest to the next multiple. -/
theorem dvd_add_iff_mod {S B i : ℕ} (hS : 0 < S) :
    S ∣ B + i ↔ i % S = (S - B % S) % S := by
  have hB := Nat.mod_lt B hS
  have hi := Nat.mod_lt i hS
  rw [Nat.dvd_iff_mod_eq_zero, Nat.add_mod]
  rcases Nat.eq_zero_or_pos (B % S) with h | h
  · rw [h, Nat.zero_add, Nat.sub_zero, Nat.mod_self, Nat.mod_mod]
  · rw [Nat.mod_eq_of_lt (show S - B % S < S by omega)]
    rcases Nat.lt_or_ge (B % S + i % S) S with hlt | hge
    · rw [Nat.mod_eq_of_lt hlt]
      omega
    · rw [Nat.mod_eq_sub_mod hge, Nat.mod_eq_of_lt (by omega)]
      omega

theorem Arena.firstBoundary_lt (a : Arena) (al : ℕ) : a.firstBoundary al < stride al :=
  Nat.mod_lt _ (stride_pos al)

/-- The boundaries are the first one and those a number of strides behind it. -/
theorem Arena.WellFormed.boundary_iff (h : a.WellFormed) {i : ℕ} :
    a.Boundary al i ↔ i % stride al = a.firstBoundary al := by
  rw [Arena.firstBoundary, ← dvd_add_iff_mod (stride_pos al), Arena.Boundary]
  have hbase : a.base + i * pageSize = (a.base / pageSize + i) * pageSize := by
    rw [Nat.add_mul, Nat.div_mul_cancel h.base_dvd]
  rw [hbase]
  rcases Nat.le_total al pageSizeShift with hle | hle
  · have hs : stride al = 1 := by rw [stride, max_eq_right hle, Nat.sub_self, pow_zero]
    have hd : 2 ^ al ∣ pageSize := by
      rw [show pageSize = 2 ^ pageSizeShift from rfl]
      exact pow_dvd_pow 2 hle
    simp only [hs, one_dvd, iff_true]
    exact Dvd.dvd.mul_left hd _
  · rw [← max_eq_left hle, ← stride_mul_pageSize, max_eq_left hle]
    exact Nat.mul_dvd_mul_iff_right (by norm_num [pageSize])

theorem Arena.WellFormed.boundary_firstBoundary (h : a.WellFormed) :
    a.Boundary al (a.firstBoundary al) :=
  h.boundary_iff.2 (Nat.mod_eq_of_lt (a.firstBoundary_lt al))

theorem Arena.WellFormed.firstBoundary_le (h : a.WellFormed) {i : ℕ} (hi : a.Boundary al i) :
    a.firstBoundary al ≤ i := by
  rw [← h.boundary_iff.1 hi]
  exact Nat.mod_le _ _

/-- The first boundary behind the page `q`. -/
def Arena.nextBoundary (a : Arena) (al q : ℕ) : ℕ :=
  a.firstBoundary al + ((q - a.firstBoundary al) / stride al + 1) * stride al

theorem Arena.WellFormed.nextBoundary_spec (h : a.WellFormed) {q : ℕ}
    (hq : a.firstBoundary al ≤ q) :
    a.Boundary al (a.nextBoundary al q) ∧ q < a.nextBoundary al q ∧
      a.nextBoundary al q ≤ q + stride al := by
  have hdiv := Nat.div_add_mod (q - a.firstBoundary al) (stride al)
  have hlt := Nat.mod_lt (q - a.firstBoundary al) (stride_pos al)
  refine ⟨?_, ?_, ?_⟩
  · rw [h.boundary_iff, Arena.nextBoundary, Nat.add_mul_mod_self_right,
      Nat.mod_eq_of_lt (a.firstBoundary_lt al)]
  · rw [Arena.nextBoundary, Nat.add_mul, Nat.mul_comm _ (stride al)]
    omega
  · rw [Arena.nextBoundary, Nat.add_mul, Nat.mul_comm _ (stride al)]
    omega

/-- Two boundaries that are less than a stride apart are the same. -/
theorem Arena.WellFormed.boundary_unique (h : a.WellFormed) {b c : ℕ} (hb : a.Boundary al b)
    (hc : a.Boundary al c) (hbc : b < c) : b + stride al ≤ c := by
  have h₁ := h.boundary_iff.1 hb
  have h₂ := h.boundary_iff.1 hc
  by_contra hlt
  have hdvd : stride al ∣ c - b :=
    Nat.dvd_of_mod_eq_zero (Nat.sub_mod_eq_zero_of_mod_eq (h₂.trans h₁.symm))
  have := Nat.le_of_dvd (by omega) hdvd
  omega

theorem Arena.WellFormed.nextBoundary_le (h : a.WellFormed) {q c : ℕ}
    (hq : a.firstBoundary al ≤ q) (hc : a.Boundary al c) (hqc : q < c) :
    a.nextBoundary al q ≤ c := by
  obtain ⟨hb, -, hle⟩ := h.nextBoundary_spec hq
  by_contra hlt
  have := h.boundary_unique hc hb (by omega)
  omega

end Boundary

/-! ### The position of the search -/

section Jump

variable {a : Arena} {al : ℕ}

/-- How far apart the positions are, as `pmm_alloc_contiguous` writes it. -/
theorem roundup_eq {x : ℕ} (hx : x ≤ 2 ^ 32) (hal : al < 64) :
    roundup x (max al pageSizeShift - pageSizeShift) =
      (x + (stride al - 1)) / stride al * stride al := by
  have hk : max al pageSizeShift - pageSizeShift < 52 := by
    simp only [pageSizeShift]
    omega
  have hs : shl1 (max al pageSizeShift - pageSizeShift) = stride al := by
    rw [shl1, Nat.mod_eq_of_lt (by omega), stride]
  have hle : stride al ≤ 2 ^ 52 := Nat.pow_le_pow_right (by norm_num) hk.le
  rw [roundup, hs, u64_of_lt (by omega)]

/-- Where the search goes on after a page that is not free, before the position is cut to 32
bits. -/
theorem jump_eq {c i : ℕ} (hal : al < 64) (hc : c < 2 ^ 32) (hoff : a.firstBoundary al ≤ c)
    (hd : c - a.firstBoundary al + i + 1 < 2 ^ 32) :
    u32 (roundup (u32 (sub32 c (a.firstBoundary al) + i + 1))
        (max al pageSizeShift - pageSizeShift) + a.firstBoundary al) =
      u32 (a.nextBoundary al (c + i)) := by
  rw [sub32_of_le hc hoff, u32_of_lt hd, roundup_eq hd.le hal, Arena.nextBoundary]
  congr 1
  rw [Nat.add_comm, show c + i - a.firstBoundary al = c - a.firstBoundary al + i by omega,
    ← Nat.add_div_right _ (stride_pos al)]
  have := stride_pos al
  congr 3
  omega

/-- Wherever the search goes on, it is at a boundary. -/
theorem jump_boundary (h : a.WellFormed) {x : ℕ} (hal : al < 64) (hx : x ≤ 2 ^ 32)
    (hoff : a.firstBoundary al < 2 ^ 32) :
    a.Boundary al (u32 (roundup x (max al pageSizeShift - pageSizeShift) + a.firstBoundary al)) := by
  rw [h.boundary_iff, roundup_eq hx hal]
  generalize (x + (stride al - 1)) / stride al = m
  have hlt := a.firstBoundary_lt al
  rcases Nat.le_total (max al pageSizeShift - pageSizeShift) 32 with hk | hk
  · have hd : stride al ∣ 2 ^ 32 := pow_dvd_pow 2 hk
    rw [u32, Nat.mod_mod_of_dvd _ hd, Nat.add_comm, Nat.add_mul_mod_self_right,
      Nat.mod_eq_of_lt hlt]
  · obtain ⟨r, hr⟩ : 2 ^ 32 ∣ stride al := pow_dvd_pow 2 hk
    have hm : u32 (m * stride al + a.firstBoundary al) = a.firstBoundary al := by
      rw [u32, hr, Nat.mul_left_comm, Nat.mul_add_mod,
        Nat.mod_eq_of_lt hoff]
    rw [hm, Nat.mod_eq_of_lt hlt]

/-- A position that wraps in an arena of fewer than `2 ^ 32` pages is the first one again. -/
theorem u32_nextBoundary (h : a.WellFormed) {q : ℕ} (hq : a.firstBoundary al ≤ q)
    (hlt : q < 2 ^ 32) (hge : 2 ^ 32 ≤ a.nextBoundary al q) (hoff : a.firstBoundary al < 2 ^ 32) :
    u32 (a.nextBoundary al q) = a.firstBoundary al := by
  obtain ⟨hb, -, hle⟩ := h.nextBoundary_spec hq
  have hb := h.boundary_iff.1 hb
  rcases Nat.le_total (max al pageSizeShift - pageSizeShift) 32 with hk | hk
  · have hd : stride al ∣ 2 ^ 32 := pow_dvd_pow 2 hk
    have hs : stride al ≤ 2 ^ 32 := Nat.le_of_dvd (by norm_num) hd
    have hw : u32 (a.nextBoundary al q) < stride al := by
      rw [u32]
      omega
    rw [← Nat.mod_eq_of_lt hw, u32, Nat.mod_mod_of_dvd _ hd, hb]
  · obtain ⟨r, hr⟩ : 2 ^ 32 ∣ stride al := pow_dvd_pow 2 hk
    generalize hm : (q - a.firstBoundary al) / stride al + 1 = m
    rw [Arena.nextBoundary, hm, u32, hr, Nat.add_comm, Nat.mul_left_comm, Nat.mul_add_mod,
      Nat.mod_eq_of_lt hoff]

/-- Where the search starts. -/
theorem Arena.WellFormed.findRun_eq (h : a.WellFormed) (s : State) {count : ℕ} (hal : al < 64)
    (hk : a.kmap = true) :
    findRun s a count (max al pageSizeShift) =
      if a.firstBoundary al < a.pageCount then
        searchRun s a count (max al pageSizeShift) (u32 (a.firstBoundary al)) (2 ^ 32)
          (u32 (a.firstBoundary al))
      else some none := by
  obtain ⟨B, hB⟩ := h.base_dvd
  have hsize := h.size_eq
  have hfits := h.fits
  have hpos := h.size_pos
  have hspos := stride_pos al
  have hshl : shl1 (max al pageSizeShift) = stride al * pageSize := by
    rw [shl1, Nat.mod_eq_of_lt (by simp only [pageSizeShift]; omega), stride_mul_pageSize]
  have hdvd : stride al ∣ 2 ^ 52 :=
    pow_dvd_pow 2 (by simp only [pageSizeShift]; omega)
  -- the first boundary is the rest to the next multiple of the stride
  have hmul : stride al ∣ B + a.firstBoundary al := by
    rw [dvd_add_iff_mod hspos, Arena.firstBoundary, hB, Nat.mul_div_cancel_left _ (by norm_num [pageSize]),
      Nat.mod_mod]
  have hlt := a.firstBoundary_lt al
  generalize a.firstBoundary al = off at *
  generalize stride al = S at *
  obtain ⟨m, hm⟩ := hmul
  obtain ⟨T, hT⟩ := hdvd
  have hround : (B + (S - 1)) / S * S = B + off := by
    have h₁ : (B + (S - 1)) / S = m := by
      rw [Nat.div_eq_iff hspos]
      have h₂ : m * S = B + off := by rw [hm, Nat.mul_comm]
      omega
    rw [h₁, hm, Nat.mul_comm]
  simp only [findRun, hk, if_true]
  rcases Nat.lt_or_ge (2 ^ 52) (B + S) with hwrap | hfit
  · -- the rounded base wraps to zero, and the next boundary is the top of the address range
    have hS : S ≤ 2 ^ 52 := Nat.le_of_dvd (by norm_num) ⟨T, hT⟩
    have hu : roundup a.base (max al pageSizeShift) = 0 := by
      rw [roundup, hshl, Nat.div_eq_of_lt, Nat.zero_mul]
      simp only [pageSize, u64] at *
      omega
    have hle : T ≤ m := by
      by_contra hmT
      have : S * (m + 1) ≤ S * T := Nat.mul_le_mul_left S (by omega)
      rw [Nat.mul_add] at this
      omega
    have hmul : S * T ≤ S * m := Nat.mul_le_mul_left S hle
    simp only [pageSize] at *
    rw [hu, if_pos (.inl (by omega)), if_neg (by omega)]
  · have hu : roundup a.base (max al pageSizeShift) = (B + off) * pageSize := by
      have hdiv : (a.base + (S * pageSize - 1)) / pageSize = B + (S - 1) := by
        simp only [pageSize] at *
        omega
      rw [roundup, hshl, u64_of_lt (by simp only [pageSize] at *; omega), ← hround, ← hdiv,
        Nat.div_div_eq_div_mul, Nat.mul_comm pageSize S, Nat.mul_assoc]
    have hin : ((B + off) * pageSize < a.base ∨ a.base + a.size - 1 < (B + off) * pageSize) ↔
        ¬off < a.pageCount := by
      simp only [pageSize] at *
      omega
    have hidx : ((B + off) * pageSize - a.base) / pageSize = off := by
      simp only [pageSize] at *
      omega
    rw [hu, lastW_of_le hpos hfits, hidx]
    by_cases hlt : off < a.pageCount
    · rw [if_neg (by rw [hin]; exact not_not_intro hlt), if_pos hlt]
    · rw [if_pos (hin.2 hlt), if_neg hlt]

end Jump

/-! ### The search -/

section Search

variable {s : State} {a : Arena} {count al : ℕ}

theorem firstNonfree_eq_some {start n i : ℕ} (h : firstNonfree s a start n = some i) :
    i < n ∧ s.nonfree (a.page (start + i)) = true ∧
      ∀ j < i, s.nonfree (a.page (start + j)) = false := by
  obtain ⟨h₁, h₂, h₃⟩ := List.find?_range_eq_some.1 h
  exact ⟨List.mem_range.1 h₂, h₁, fun j hj => by simpa using h₃ j hj⟩

/-- The page a run is broken at lies in front of every other such page. -/
theorem firstNonfree_le {start n i q : ℕ} (h : firstNonfree s a start n = some i)
    (hq : start ≤ q) (hn : s.nonfree (a.page q) = true) : start + i ≤ q := by
  by_contra hlt
  have := (firstNonfree_eq_some h).2.2 (q - start) (by omega)
  rw [show start + (q - start) = q by omega, hn] at this
  cases this

/-- The search finds the first run, where it ends below the page `2 ^ 32`. -/
theorem searchRun_served (h : a.WellFormed) (hal : al < 64) {t : ℕ}
    (hrun : AlignedRun s a count al t) (hmin : ∀ i < t, ¬AlignedRun s a count al i)
    (hlt : t + count < 2 ^ 32) (hpos : 0 < count) (fuel c : ℕ) (hc : a.Boundary al c) (hct : c ≤ t)
    (hfuel : t - c < fuel) :
    searchRun s a count (max al pageSizeShift) (a.firstBoundary al) fuel c = some (some t) := by
  induction fuel generalizing c with
  | zero => omega
  | succ fuel ih =>
    have hin := hrun.inside
    have hoff := h.firstBoundary_le hc
    simp only [searchRun]
    rw [if_pos ⟨by omega, by rw [u32_of_lt (by omega)]; omega⟩, Nat.min_eq_left (by omega)]
    cases hf : firstNonfree s a c count with
    | none =>
      obtain rfl : c = t := by
        by_contra hne
        exact hmin c (by omega) ⟨by omega, hc, firstNonfree_eq_none hf⟩
      dsimp only
      rw [if_neg (by omega)]
    | some i =>
      obtain ⟨hi, hn, -⟩ := firstNonfree_eq_some hf
      -- the run does not start at or in front of the page
      have hit : c + i < t := by
        by_contra hle
        have := hrun.free (c + i - t) (by omega)
        rw [show t + (c + i - t) = c + i by omega, hn] at this
        cases this
      have hnext := h.nextBoundary_spec (show a.firstBoundary al ≤ c + i by omega)
      have hle := h.nextBoundary_le (by omega) hrun.aligned hit
      dsimp only
      rw [jump_eq hal (by omega) hoff (by omega), u32_of_lt (by omega)]
      exact ih _ hnext.1 hle (by omega)

/-- The search ends with nothing where there is no run, and a boundary to stop at. -/
theorem searchRun_refused (h : a.WellFormed) (hal : al < 64)
    (hnone : ∀ i, ¬AlignedRun s a count al i) {e : ℕ} (he : Stops s a count al e) (fuel c : ℕ)
    (hc : a.Boundary al c) (hce : c ≤ e) (hfuel : e - c < fuel) :
    searchRun s a count (max al pageSizeShift) (a.firstBoundary al) fuel c = some none := by
  induction fuel generalizing c with
  | zero => omega
  | succ fuel ih =>
    have hlt := he.lt
    have hoff := h.firstBoundary_le hc
    simp only [searchRun]
    by_cases hin : c < a.pageCount ∧ u32 (c + count) ≤ a.pageCount
    · rw [if_pos hin]
      obtain hlt' | rfl := Nat.lt_or_eq_of_le hce
      · obtain ⟨q, hcq, hqe, hq, hn⟩ := he.tried.broken c hlt' hc
        cases hf : firstNonfree s a c (min count (a.pageCount - c)) with
        | none =>
          -- the run would be one, or the page `q` is in it
          have hfree := firstNonfree_eq_none hf
          by_cases hfit : c + count ≤ a.pageCount
          · rw [Nat.min_eq_left (by omega)] at hfree
            exact absurd ⟨hfit, hc, hfree⟩ (hnone c)
          · have := hfree (q - c) (by omega)
            rw [show c + (q - c) = q by omega, hn] at this
            cases this
        | some i =>
          obtain ⟨hi, -, -⟩ := firstNonfree_eq_some hf
          have hiq := firstNonfree_le hf hcq hn
          have hnext := h.nextBoundary_spec
            (show a.firstBoundary al ≤ c + i by omega)
          have hle := h.nextBoundary_le (by omega) he.tried.aligned (show c + i < e by omega)
          dsimp only
          rw [jump_eq hal (by omega) hoff (by omega), u32_of_lt (by omega)]
          exact ih _ hnext.1 hle (by omega)
      · obtain hge | ⟨hgt, hlt'⟩ := he.short
        · omega
        · have := hin.2
          rw [u32_of_lt hlt'] at this
          omega
    · rw [if_neg hin]

/-- The search does not return, or with a run that is not at a boundary or that ends at or
behind the page `2 ^ 32`. -/
def Wrong (a : Arena) (count al : ℕ) (r : Option (Option ℕ)) : Prop :=
  r = none ∨ ∃ i, r = some (some i) ∧ (¬a.Boundary al i ∨ 2 ^ 32 ≤ i + count)

/-- One step of a search whose position is in the arena, and does not seem to be too close
to its end. -/
theorem searchRun_wrong_step {off fuel c : ℕ} (hc : c < a.pageCount)
    (hcount : u32 (c + count) ≤ a.pageCount) (hfound : c + count ≤ a.pageCount →
      (∀ i < count, s.nonfree (a.page (c + i)) = false) → ¬a.Boundary al c ∨ 2 ^ 32 ≤ c + count)
    (hnext : ∀ i < count, c + i < a.pageCount → s.nonfree (a.page (c + i)) = true →
      Wrong a count al (searchRun s a count (max al pageSizeShift) off fuel
        (u32 (roundup (u32 (sub32 c off + i + 1)) (max al pageSizeShift - pageSizeShift) + off)))) :
    Wrong a count al (searchRun s a count (max al pageSizeShift) off (fuel + 1) c) := by
  simp only [searchRun]
  rw [if_pos ⟨hc, hcount⟩]
  cases hf : firstNonfree s a c (min count (a.pageCount - c)) with
  | some i =>
    obtain ⟨hi, hn, -⟩ := firstNonfree_eq_some hf
    exact hnext i (by omega) (by omega) hn
  | none =>
    have hfree := firstNonfree_eq_none hf
    dsimp only
    by_cases hgt : a.pageCount < c + count
    · rw [if_pos hgt]
      exact .inl rfl
    · rw [if_neg hgt]
      rw [Nat.min_eq_left (by omega)] at hfree
      exact .inr ⟨c, rfl, hfound (by omega) hfree⟩

/-- A first boundary that 32 bits cannot hold: the search starts off a boundary and never
leaves its first position. -/
theorem searchRun_misplaced (h : a.WellFormed) (hal : al < 64)
    (hoff : 2 ^ 32 ≤ a.firstBoundary al) (hin : a.firstBoundary al < a.pageCount) (fuel : ℕ) :
    Wrong a count al (searchRun s a count (max al pageSizeShift) (u32 (a.firstBoundary al)) fuel
      (u32 (a.firstBoundary al))) := by
  have hlt := a.firstBoundary_lt al
  have hu := u32_lt (a.firstBoundary al)
  induction fuel with
  | zero => exact .inl rfl
  | succ fuel ih =>
    refine searchRun_wrong_step (by omega) (by have := u32_lt (u32 (a.firstBoundary al) + count); omega)
      (fun _ _ => .inl fun hb => ?_) fun i hi _ _ => ?_
    · have := h.firstBoundary_le hb
      omega
    · have hstay : u32 (roundup (u32 (sub32 (u32 (a.firstBoundary al))
          (u32 (a.firstBoundary al)) + i + 1)) (max al pageSizeShift - pageSizeShift) +
            u32 (a.firstBoundary al)) = u32 (a.firstBoundary al) := by
        obtain ⟨r, hr⟩ : 2 ^ 32 ∣ stride al := by
          refine pow_dvd_pow 2 ?_
          by_contra hk
          have : stride al ≤ 2 ^ 32 := Nat.pow_le_pow_right (by norm_num) (by omega)
          omega
        generalize sub32 (u32 (a.firstBoundary al)) (u32 (a.firstBoundary al)) + i + 1 = x
        rw [roundup_eq (u32_lt x).le hal]
        generalize (u32 x + (stride al - 1)) / stride al = m
        generalize u32 (a.firstBoundary al) = o at hu ⊢
        rw [hr, Nat.mul_left_comm, u32, Nat.mul_add_mod, Nat.mod_eq_of_lt hu]
      rw [hstay]
      exact ih

/-- An arena of at least `2 ^ 32` pages, all of whose runs end at or behind that page. -/
theorem searchRun_beyond (h : a.WellFormed) (hal : al < 64) (hbig : 2 ^ 32 ≤ a.pageCount)
    (hrun : ∀ i, AlignedRun s a count al i → 2 ^ 32 ≤ i + count)
    (hoff : a.firstBoundary al < 2 ^ 32) (fuel c : ℕ) (hc : a.Boundary al c) (hlt : c < 2 ^ 32) :
    Wrong a count al (searchRun s a count (max al pageSizeShift) (a.firstBoundary al) fuel c) := by
  induction fuel generalizing c with
  | zero => exact .inl rfl
  | succ fuel ih =>
    refine searchRun_wrong_step (by omega) (by have := u32_lt (c + count); omega)
      (fun hle hfree => .inr (hrun c ⟨hle, hc, hfree⟩)) fun i _ _ _ => ?_
    exact ih _ (jump_boundary h hal (u32_lt _).le hoff) (u32_lt _)

/-- A smaller arena without a run, and without a boundary to stop at: the search goes round
all the boundaries it tries, or leaves the page array. -/
theorem searchRun_endless (h : a.WellFormed) (hal : al < 64) (hcount : count < 2 ^ 32)
    (hsmall : a.pageCount < 2 ^ 32) (hnone : ∀ i, ¬AlignedRun s a count al i)
    (hstop : ∀ c, ¬Stops s a count al c) (hoff : a.firstBoundary al < a.pageCount) (fuel c : ℕ)
    (hc : Tried s a al c) (hlt : c < 2 ^ 32) :
    Wrong a count al (searchRun s a count (max al pageSizeShift) (a.firstBoundary al) fuel c) := by
  induction fuel generalizing c with
  | zero => exact .inl rfl
  | succ fuel ih =>
    have hgo : c < a.pageCount ∧ (c + count ≤ a.pageCount ∨ 2 ^ 32 ≤ c + count) := by
      by_contra hshort
      exact hstop c ⟨hc, hlt, by omega⟩
    have hle := h.firstBoundary_le hc.aligned
    refine searchRun_wrong_step hgo.1 (by simp only [u32]; omega)
      (fun hfit hfree => absurd ⟨hfit, hc.aligned, hfree⟩ (hnone c)) fun i hi hin hn => ?_
    rw [jump_eq hal hlt hle (by omega)]
    obtain ⟨hb, hgt, hstride⟩ := h.nextBoundary_spec (show a.firstBoundary al ≤ c + i by omega)
    rcases Nat.lt_or_ge (a.nextBoundary al (c + i)) (2 ^ 32) with hfit | hwrap
    · rw [u32_of_lt hfit]
      refine ih _ ⟨hb, fun b hb' hbb => ?_⟩ hfit
      have := h.boundary_unique hbb hb hb'
      exact ⟨c + i, by omega, hgt, hin, hn⟩
    · rw [u32_nextBoundary h (by omega) (by omega) hwrap (by omega)]
      refine ih _ ⟨h.boundary_firstBoundary, fun b hb' hbb => ?_⟩ (by omega)
      have := h.firstBoundary_le hbb
      omega

/-- An arena for which the positions suffice is searched for what is there. -/
theorem Arena.Suffices.findRun (hs : a.Suffices s count al) (h : a.WellFormed) (hal : al < 64)
    (hk : a.kmap = true) (hpos : 0 < count) :
    (∃ i, Pmm.findRun s a count (max al pageSizeShift) = some (some i) ∧
        AlignedRun s a count al i ∧ i + count < 2 ^ 32) ∨
      (Pmm.findRun s a count (max al pageSizeShift) = some none ∧
        ∀ i, ¬AlignedRun s a count al i) := by
  rw [h.findRun_eq s hal hk]
  obtain ⟨i, hi, hlt⟩ | ⟨hnone, hend⟩ := hs
  · classical
    -- the first run of all
    have hex : ∃ t, AlignedRun s a count al t := ⟨i, hi⟩
    have hle := Nat.find_min' hex hi
    have hrun := Nat.find_spec hex
    have hmin : ∀ j < Nat.find hex, ¬AlignedRun s a count al j := fun j => Nat.find_min hex
    generalize Nat.find hex = t at hle hrun hmin
    have hin := hrun.inside
    have hoff := h.firstBoundary_le hrun.aligned
    rw [if_pos (by omega), u32_of_lt (by omega)]
    exact .inl ⟨t, searchRun_served h hal hrun hmin (by omega) hpos _ _ h.boundary_firstBoundary
      hoff (by omega), hrun, by omega⟩
  · refine .inr ⟨?_, hnone⟩
    by_cases hin : a.firstBoundary al < a.pageCount
    · obtain hno | ⟨e, he⟩ := hend
      · exact absurd h.boundary_firstBoundary (hno _ hin)
      · have hoff := h.firstBoundary_le he.tried.aligned
        have hlt := he.lt
        rw [if_pos hin, u32_of_lt (by omega)]
        exact searchRun_refused h hal hnone he _ _ h.boundary_firstBoundary hoff (by omega)
    · rw [if_neg hin]

/-- And no other is. -/
theorem findRun_wrong (hs : ¬a.Suffices s count al) (h : a.WellFormed) (hal : al < 64)
    (hk : a.kmap = true) (hpos : 0 < count) (hcount : count < 2 ^ 32) :
    Wrong a count al (findRun s a count (max al pageSizeShift)) := by
  rw [Arena.Suffices, not_or] at hs
  obtain ⟨hrun, hnone⟩ := hs
  have hrun : ∀ i, AlignedRun s a count al i → 2 ^ 32 ≤ i + count := by
    intro i hi
    by_contra hlt
    exact hrun ⟨i, hi, by omega⟩
  have hin : a.firstBoundary al < a.pageCount := by
    by_contra hout
    have hno : ∀ i < a.pageCount, ¬a.Boundary al i := fun i hi hb => by
      have := h.firstBoundary_le hb
      omega
    refine hnone ⟨fun i hi => hno i ?_ hi.aligned, .inl hno⟩
    have := hi.inside
    omega
  rw [h.findRun_eq s hal hk, if_pos hin]
  rcases Nat.lt_or_ge (a.firstBoundary al) (2 ^ 32) with hoff | hoff
  · rw [u32_of_lt hoff]
    rcases Nat.lt_or_ge a.pageCount (2 ^ 32) with hsmall | hbig
    · have hno : ∀ i, ¬AlignedRun s a count al i := fun i hi => by
        have h₁ := hrun i hi
        have h₂ := hi.inside
        omega
      refine searchRun_endless h hal hcount hsmall hno (fun c hc => hnone ⟨hno, .inr ⟨c, hc⟩⟩) hin
        _ _ ⟨h.boundary_firstBoundary, fun b hb hbb => ?_⟩ hoff
      have := h.firstBoundary_le hbb
      omega
    · exact searchRun_beyond h hal hbig hrun hoff _ _ h.boundary_firstBoundary hoff
  · exact searchRun_misplaced h hal hoff hin _

end Search

/-! ### The arenas in turn -/

section Walk

variable {s : State} {count al : ℕ} {l : List ℕ}

theorem findRun_of_not_kmap {a : Arena} (hk : ¬a.kmap = true) :
    findRun s a count al = some none := by
  rw [findRun, if_neg hk]

theorem searchSuffices_cons {a : ℕ} :
    SearchSuffices s count al (a :: l) ↔
      ((s.arena a).kmap = true → (s.arena a).Suffices s count al) ∧
        (((s.arena a).kmap = true → ∀ i, ¬AlignedRun s (s.arena a) count al i) →
          SearchSuffices s count al l) := by
  constructor
  · refine fun h => ⟨fun hk => h [] a l rfl hk (by simp), fun hno as b bs heq hk hall => ?_⟩
    refine h (a :: as) b bs (by rw [heq, List.cons_append]) hk fun c hc => ?_
    obtain rfl | hc := List.mem_cons.1 hc
    · exact hno
    · exact hall c hc
  · rintro ⟨hhead, htail⟩ as b bs heq hk hall
    cases as with
    | nil =>
      obtain ⟨rfl, -⟩ := List.cons.inj heq
      exact hhead hk
    | cons c as =>
      obtain ⟨rfl, rfl⟩ := List.cons.inj heq
      exact htail (hall a List.mem_cons_self) as b bs rfl hk
        fun d hd => hall d (List.mem_cons_of_mem _ hd)

theorem contiguousWalk_found {a i k : ℕ} (hf : findRun s (s.arena a) count k = some (some i)) :
    contiguousWalk s count k (a :: l) = some (some (a, i)) := by
  rw [contiguousWalk, hf]
  rfl

theorem contiguousWalk_next {a k : ℕ} (hf : findRun s (s.arena a) count k = some none) :
    contiguousWalk s count k (a :: l) = contiguousWalk s count k l := by
  rw [contiguousWalk, hf]
  rfl

/-- The walk ends at a run, or there is none. -/
theorem contiguousWalk_right (hl : ∀ a ∈ l, (s.arena a).WellFormed) (hal : al < 64)
    (hpos : 0 < count) (hs : SearchSuffices s count al l) :
    (∃ a ∈ l, (s.arena a).kmap = true ∧ ∃ i, AlignedRun s (s.arena a) count al i ∧
        i + count < 2 ^ 32 ∧ contiguousWalk s count (max al pageSizeShift) l = some (some (a, i))) ∨
      ((∀ a ∈ l, (s.arena a).kmap = true → ∀ i, ¬AlignedRun s (s.arena a) count al i) ∧
        contiguousWalk s count (max al pageSizeShift) l = some none) := by
  induction l with
  | nil => exact .inr ⟨by simp, rfl⟩
  | cons a l ih =>
    obtain ⟨hhead, htail⟩ := searchSuffices_cons.1 hs
    have hfind : (∃ i, findRun s (s.arena a) count (max al pageSizeShift) = some (some i) ∧
          (s.arena a).kmap = true ∧ AlignedRun s (s.arena a) count al i ∧ i + count < 2 ^ 32) ∨
        (findRun s (s.arena a) count (max al pageSizeShift) = some none ∧
          ((s.arena a).kmap = true → ∀ i, ¬AlignedRun s (s.arena a) count al i)) := by
      by_cases hk : (s.arena a).kmap = true
      · obtain ⟨i, hf, hi⟩ | ⟨hf, hno⟩ := (hhead hk).findRun (hl a List.mem_cons_self) hal hk hpos
        · exact .inl ⟨i, hf, hk, hi⟩
        · exact .inr ⟨hf, fun _ => hno⟩
      · exact .inr ⟨findRun_of_not_kmap hk, fun h => absurd h hk⟩
    obtain ⟨i, hf, hk, hi, hlt⟩ | ⟨hf, hno⟩ := hfind
    · exact .inl ⟨a, List.mem_cons_self, hk, i, hi, hlt, contiguousWalk_found hf⟩
    · rw [contiguousWalk_next hf]
      refine (ih (fun b hb => hl b (List.mem_cons_of_mem _ hb)) (htail hno)).imp ?_ ?_
      · rintro ⟨b, hb, hrest⟩
        exact ⟨b, List.mem_cons_of_mem _ hb, hrest⟩
      · rintro ⟨hall, hw⟩
        exact ⟨List.forall_mem_cons.2 ⟨hno, hall⟩, hw⟩

/-- The walk does not return, or with a run that is not at a boundary or that ends at or
behind the page `2 ^ 32` of its arena. -/
theorem contiguousWalk_wrong (hl : ∀ a ∈ l, (s.arena a).WellFormed) (hal : al < 64)
    (hpos : 0 < count) (hcount : count < 2 ^ 32) (hs : ¬SearchSuffices s count al l) :
    contiguousWalk s count (max al pageSizeShift) l = none ∨
      ∃ a i, contiguousWalk s count (max al pageSizeShift) l = some (some (a, i)) ∧
        (¬(s.arena a).Boundary al i ∨ 2 ^ 32 ≤ i + count) := by
  induction l with
  | nil => exact absurd (fun as a bs h => by simp at h) hs
  | cons a l ih =>
    have hl' : ∀ b ∈ l, (s.arena b).WellFormed := fun b hb => hl b (List.mem_cons_of_mem _ hb)
    rw [searchSuffices_cons] at hs
    by_cases hk : (s.arena a).kmap = true
    · by_cases hhead : (s.arena a).Suffices s count al
      · obtain ⟨i, hf, hi, hlt⟩ | ⟨hf, hno⟩ :=
          hhead.findRun (hl a List.mem_cons_self) hal hk hpos
        · exact absurd ⟨fun _ => hhead, fun hno => absurd hi (hno hk i)⟩ hs
        · rw [contiguousWalk_next hf]
          exact ih hl' fun hrest => hs ⟨fun _ => hhead, fun _ => hrest⟩
      · obtain hf | ⟨i, hf, hi⟩ :=
          findRun_wrong hhead (hl a List.mem_cons_self) hal hk hpos hcount
        · exact .inl (by rw [contiguousWalk, hf]; rfl)
        · exact .inr ⟨a, i, contiguousWalk_found hf, hi⟩
    · rw [contiguousWalk_next (findRun_of_not_kmap hk)]
      exact ih hl' fun hrest => hs ⟨fun h => absurd h hk, fun _ => hrest⟩

end Walk

/-! ### What is marked -/

theorem Hands.freeList {s s' : State} {ps : List ℕ} (h : Hands s ps s') (hs : Inv s) (b : ℕ) :
    (s'.arena b).freeList = (s.arena b).freeList.filter fun p => p ∉ ps := by
  induction h with
  | nil s => simp
  | @cons s s' a p ps ha hp hf h ih =>
    have herase : ((s.handOut a p).arena b).freeList =
        (s.arena b).freeList.filter (· != p) := (hs.freeList_nodup b).erase_eq_filter p
    rw [ih (hs.handOut ha hp hf), herase, List.filter_filter]
    refine List.filter_congr fun q _ => ?_
    by_cases hq : q = p <;> simp [hq]

theorem Hands.marks {s s' : State} {ps : List ℕ} (h : Hands s ps s') (hs : Inv s) :
    Marks s ps s' where
  arenas := h.sameArenas
  nonfree := h.nonfree_iff
  freeList := h.freeList hs
  freeCount a ha := (h.inv hs).freeCount_eq a (h.sameArenas.arenaList ▸ ha)

/-- `pmm_alloc_contiguous` does what it is for if and only if 32 bits suffice. -/
theorem contiguousExact_iff {s : State} {count al : ℕ} (h : Inv s) (hal : al < 64)
    (hpos : 0 < count) (hcount : count < 2 ^ 32) :
    ContiguousExact s count al ↔ SearchSuffices s count al s.arenaList := by
  have hcall : pmmAllocContiguous s count al =
      (contiguousWalk s count (max al pageSizeShift) s.arenaList).map _ := if_neg (by omega)
  constructor
  · intro hex
    by_contra hs
    have hw := contiguousWalk_wrong h.wellFormed hal hpos hcount hs
    by_cases hrun : ∃ a ∈ s.arenaList, (s.arena a).kmap = true ∧
        ∃ i, AlignedRun s (s.arena a) count al i
    · obtain ⟨a, -, -, i, hi, s', hret, -⟩ := hex.found hrun
      obtain hw | ⟨b, j, hw, hbad⟩ := hw
      · rw [hcall, hw] at hret
        cases hret
      · rw [hcall, hw] at hret
        simp only [Option.map_some, Option.some.injEq, Prod.mk.injEq, Run.mk.injEq] at hret
        obtain ⟨-, hpages, hpa⟩ := hret
        obtain hbad | hbad := hbad
        · -- the address is aligned, so the index is at a boundary after all
          refine hbad ((Nat.dvd_mod_iff (pow_dvd_pow 2 hal.le)).1 ?_)
          change 2 ^ al ∣ u64 ((s.arena b).base + j * pageSize)
          rw [hpa]
          exact hi.aligned
        · have hlen := congrArg List.length hpages
          simp only [Arena.run, List.length_map, List.length_range, u32] at hlen
          omega
    · have hret := hex.refused (by
        intro a ha hk i hi
        exact hrun ⟨a, ha, hk, i, hi⟩)
      obtain hw | ⟨b, j, hw, -⟩ := hw <;>
      · rw [hcall, hw] at hret
        simp at hret
  · intro hs
    have hw := contiguousWalk_right h.wellFormed hal hpos hs
    constructor
    · rintro ⟨a, ha, hk, i, hi⟩
      obtain ⟨b, hb, hkb, j, hj, hlt, hw⟩ | ⟨hno, -⟩ := hw
      · have hsub : u32 (j + count) - j = count := by
          rw [u32_of_lt hlt]
          omega
        have hwf := h.wellFormed b hb
        have hpa : u64 ((s.arena b).base + j * pageSize) = (s.arena b).base + j * pageSize := by
          have h₁ := hwf.size_eq
          have h₂ := hwf.fits
          have h₃ := hj.inside
          refine u64_of_lt ?_
          simp only [pageSize] at *
          omega
        refine ⟨b, hb, hkb, j, hj, _, ?_, Hands.marks (hands_foldl hb (Arena.run_nodup _ _ _) ?_) h⟩
        · rw [hcall, hw]
          simp only [Option.map_some, hsub, hpa]
        · intro p hp
          obtain ⟨k, hk', rfl⟩ := List.mem_map.1 hp
          have hk' := List.mem_range.1 hk'
          have hin := hj.inside
          exact ⟨⟨j + k, by omega, rfl⟩, hj.free k hk'⟩
      · exact absurd hi (hno a ha hk i)
    · intro hno
      obtain ⟨b, hb, hkb, j, hj, -⟩ | ⟨-, hw⟩ := hw
      · exact absurd hj (hno b hb hkb j)
      · rw [hcall, hw]
        rfl

/-! ### The number of pages -/

section Pages

variable {s : State}

theorem Inv.freePages_eq (h : Inv s) {a : ℕ} (ha : a ∈ s.arenaList) :
    s.freePages a = (s.arena a).freeList.length := by
  have hperm : (((List.range (s.arena a).pageCount).map (s.arena a).page).filter
      fun p => !s.nonfree p).Perm (s.arena a).freeList := by
    refine (List.perm_ext_iff_of_nodup (List.Nodup.filter _ (List.Nodup.map
      (fun _ _ => Arena.page_injective) List.nodup_range)) (h.freeList_nodup a)).2 fun p => ?_
    rw [h.mem_freeList, List.mem_filter, List.mem_map]
    simp only [List.mem_range, ha, true_and, Arena.IsPage, Bool.not_eq_true']
    refine and_congr_left fun _ => ⟨?_, ?_⟩
    · rintro ⟨i, hi, rfl⟩
      exact ⟨i, hi, rfl⟩
    · rintro ⟨i, hi, rfl⟩
      exact ⟨i, hi, rfl⟩
  rw [← hperm.length_eq, List.filter_map, List.length_map, ← List.countP_eq_length_filter]
  rfl

/-- An arena gives what it has, and `goto done` when that is not enough. -/
theorem allocPagesArena_spec (a n : ℕ) (s : State) :
    (allocPagesArena a n s).2.1.length = min n (s.arena a).freeList.length ∧
      ((allocPagesArena a n s).2.2 = true ↔ (s.arena a).freeList.length < n) := by
  induction n generalizing s with
  | zero => simp [allocPagesArena]
  | succ n ih =>
    cases hl : (s.arena a).freeList with
    | nil => simp [allocPagesArena, hl]
    | cons p rest =>
      have hrest : ((s.removeHead a p).arena a).freeList = rest := by
        simp [State.removeHead, hl]
      obtain ⟨h₁, h₂⟩ := ih (s.removeHead a p)
      rw [hrest] at h₁ h₂
      simp only [allocPagesArena, hl, List.length_cons]
      exact ⟨by omega, by rw [h₂]; omega⟩

/-- With no page to go, the walk goes through the arenas and takes nothing. -/
theorem allocPagesWalk_zero (l : List ℕ) (s : State) : allocPagesWalk l 0 s = (s, []) := by
  induction l with
  | nil => rfl
  | cons a l ih => simp [allocPagesWalk, allocPagesArena, ih]

/-- Only the first arena counts. -/
theorem allocPagesWalk_length (a : ℕ) (l : List ℕ) (n : ℕ) (s : State) :
    (allocPagesWalk (a :: l) n s).2.length = min n (s.arena a).freeList.length := by
  obtain ⟨h₁, h₂⟩ := allocPagesArena_spec a n s
  simp only [allocPagesWalk]
  by_cases hdone : (allocPagesArena a n s).2.2 = true
  · rw [if_pos hdone]
    exact h₁
  · rw [if_neg hdone]
    have hlen : n - (allocPagesArena a n s).2.1.length = 0 := by
      rw [h₂] at hdone
      omega
    rw [hlen, allocPagesWalk_zero, List.append_nil]
    exact h₁

theorem sum_eq_zero_iff_forall {f : ℕ → ℕ} {l : List ℕ} :
    (l.map f).sum = 0 ↔ ∀ b ∈ l, f b = 0 := by
  induction l with
  | nil => simp
  | cons a l ih => simp [ih]

/-- `pmm_alloc_pages` does what it is for if and only if the first arena suffices. -/
theorem pagesExact_iff (h : Inv s) {count : ℕ} (hpos : 0 < count) :
    PagesExact s count ↔ FirstSuffices s count := by
  rw [PagesExact, FirstSuffices, pmmAllocPages, if_neg (by omega)]
  cases hl : s.arenaList with
  | nil => simp [allocPagesWalk]
  | cons a l =>
    have ha : a ∈ s.arenaList := hl ▸ List.mem_cons_self
    rw [allocPagesWalk_length, List.map_cons, List.sum_cons, ← h.freePages_eq ha]
    constructor
    · intro hlen b as heq
      obtain ⟨rfl, rfl⟩ := List.cons.inj heq
      rw [← sum_eq_zero_iff_forall]
      omega
    · intro hs
      have := hs a l rfl
      rw [← sum_eq_zero_iff_forall] at this
      omega

end Pages

/-! ### Both calls -/

/-- **The page allocator finds what is there, as long as it looks.**  Whatever the arenas
and whatever is free in them, `pmm_alloc_contiguous` hands out and marks a run of `count`
free pages at an aligned address if there is one, and else leaves the arenas alone, and
`pmm_alloc_pages` returns as many pages as there are, if and only if the 32-bit positions
suffice for the arenas that are searched and the first arena has all the free pages that
are wanted. -/
theorem pmmExact_iff (s : State) (h : Inv s) (count alignmentLog2 : ℕ) (hpos : 1 ≤ count)
    (hcount : count < 2 ^ 32) (hal : alignmentLog2 < 64) :
    Exact s count alignmentLog2 ↔
      SearchSuffices s count alignmentLog2 s.arenaList ∧ FirstSuffices s count :=
  and_congr (contiguousExact_iff h hal hpos hcount) (pagesExact_iff h hpos)

/-- An arena of two pages at an odd page and one of eight, each with a page handed out: the
second of the two and the second of the eight.  The allocator looks at the one of eight first or
at the other one. -/
def fragmented (bigFirst : Bool) : State :=
  (pmmAllocRange (pmmAllocRange
    (pmmAddArena (pmmAddArena (initial 0) 1 ⟨true, 1, 0x1000, 0x2000⟩) 2
      ⟨true, if bigFirst then 0 else 2, 0x4000, 0x8000⟩) 0x2000 1).1 0x5000 1).1

theorem inv_fragmented (bigFirst : Bool) : Inv (fragmented bigFirst) := by
  cases bigFirst <;>
    refine (pmmAllocRange_hands _ _ ((pmmAllocRange_hands _ _ (Inv.addArena (Inv.addArena
      (inv_initial 0) ?_) ?_)).inv (Inv.addArena (Inv.addArena (inv_initial 0) ?_) ?_))).inv
      ((pmmAllocRange_hands _ _ (Inv.addArena (Inv.addArena (inv_initial 0) ?_) ?_)).inv
        (Inv.addArena (Inv.addArena (inv_initial 0) ?_) ?_)) <;> decide +kernel

/-- Two pages are asked for, and the arena that comes first has them, behind its hole. -/
theorem pmmExact_iff_fragmented : Exact (fragmented true) 2 13 := by
  have hlist : (fragmented true).arenaList = [2, 1] := by decide +kernel
  have hrun : AlignedRun (fragmented true) ((fragmented true).arena 2) 2 13 2 :=
    ⟨by decide +kernel, by rw [Arena.Boundary]; decide +kernel, by decide +kernel⟩
  refine (pmmExact_iff _ (inv_fragmented true) 2 13 (by norm_num) (by norm_num) (by norm_num)).2
    ⟨fun as a bs hl _ hbefore => ?_, fun a as hl => .inl ?_⟩
  · rw [hlist] at hl
    cases as with
    | nil =>
      obtain ⟨rfl, -⟩ := List.cons.inj hl
      exact .inl ⟨2, hrun, by norm_num⟩
    | cons b as =>
      obtain ⟨rfl, -⟩ := List.cons.inj hl
      exact absurd hrun (hbefore 2 List.mem_cons_self (by decide +kernel) 2)
  · rw [hlist] at hl
    obtain ⟨rfl, -⟩ := List.cons.inj hl
    decide +kernel

/-- Eight pages are free in the two arenas, and `pmm_alloc_pages` returns the one of the
first. -/
theorem not_pmmExact : ¬Exact (fragmented false) 2 13 := fun h =>
  absurd h.2 (by rw [PagesExact]; decide +kernel)

end Pmm
end LittleKernel
