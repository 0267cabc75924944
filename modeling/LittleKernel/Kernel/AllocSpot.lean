/-
# Virtual gap search is exact first fit

`arch_mmu_pick_spot`, `check_gap` and `alloc_spot` of `kernel/vm/vmm.c`, with the weak
`arch_mmu_pick_spot` that only aligns: the address found is the lowest of all that would
do, and when none is found there is none.

A gap is known by its first byte and the first byte behind it, in natural numbers;
`check_gap` has the first in `w` bits, where it is 0 at the top of the address range, and
the last byte in place of the second.  `checkGap_spec` is what one gap says about the rest
of the search: the lowest spot, no room here, or no room from here on.
-/

import LittleKernel.Kernel.Vmm

namespace LittleKernel
namespace Vmm

open Word

section Spot

variable {w shift : ℕ} {a : Aspace w shift} {l : List Region} {size align archMmuFlags : ℕ}

/-- A region of the size could be put at `v`. -/
structure Spot (a : Aspace w shift) (l : List Region) (size align v : ℕ) : Prop where
  aligned : align ∣ v
  base_le : a.base ≤ v
  end_le : v + size ≤ a.base + a.size
  apart : ∀ q ∈ l, q.base + q.size ≤ v ∨ v + size ≤ q.base

/-- The lowest spot and the number of regions in front of it, or nothing where there is no
spot.  The spot is never the `-1` that says so. -/
def FirstFit (a : Aspace w shift) (l : List Region) (size align : ℕ) : Option (ℕ × ℕ) → Prop
  | some (spot, k) =>
    Spot a l size align spot ∧ (∀ v, Spot a l size align v → spot ≤ v) ∧ k ≤ l.length ∧
      (∀ r, r.base = spot → r.size = size → Inv a (l.take k ++ r :: l.drop k)) ∧
      spot ≠ 2 ^ w - 1
  | none => ∀ v, ¬Spot a l size align v

/-! ### Alignment -/

/-- The lowest multiple of `align` from `n` on. -/
theorem le_roundup {n : ℕ} (ha : 0 < align) :
    n ≤ (n + (align - 1)) / align * align ∧
      ∀ v, align ∣ v → n ≤ v → (n + (align - 1)) / align * align ≤ v := by
  have hdiv := Nat.div_add_mod (n + (align - 1)) align
  have hmod := Nat.mod_lt (n + (align - 1)) ha
  rw [Nat.mul_comm] at hdiv
  refine ⟨by omega, ?_⟩
  rintro v ⟨m, rfl⟩ hv
  rw [Nat.mul_comm align m]
  refine Nat.mul_le_mul_right align (Nat.le_of_lt_succ ?_)
  rw [Nat.div_lt_iff_lt_mul ha, Nat.succ_mul, Nat.mul_comm m]
  omega

/-- `ALIGN` gives the lowest multiple, or 0 where that is behind the top of the address
range. -/
theorem roundup_cases {n : ℕ} (ha : 0 < align) (hdvd : align ∣ 2 ^ w) (hn : n < 2 ^ w) :
    (roundup w n align = (n + (align - 1)) / align * align ∧ roundup w n align < 2 ^ w) ∨
      (roundup w n align = 0 ∧ 2 ^ w ≤ (n + (align - 1)) / align * align) := by
  have hle := Nat.div_mul_le_self (n + (align - 1)) align
  have halign := Nat.le_of_dvd (Nat.two_pow_pos w) hdvd
  rcases Nat.lt_or_ge (n + (align - 1)) (2 ^ w) with hlt | hge
  · left
    rw [roundup, addW_of_lt hlt]
    exact ⟨rfl, by omega⟩
  · right
    obtain ⟨t, ht⟩ := hdvd
    constructor
    · rw [roundup, addW, Nat.mod_eq_sub_mod hge, Nat.mod_eq_of_lt (by omega),
        Nat.div_eq_of_lt (by omega), Nat.zero_mul]
    · calc 2 ^ w = t * align := by rw [ht, Nat.mul_comm]
        _ ≤ (n + (align - 1)) / align * align :=
          Nat.mul_le_mul_right _ ((Nat.le_div_iff_mul_le ha).2 (by rw [Nat.mul_comm]; omega))

/-! ### One gap -/

/-- The first byte of the gap behind `prev`. -/
def gapBase (a : Aspace w shift) (prev : Option Region) : ℕ :=
  prev.elim a.base fun q => q.base + q.size

/-- The first byte behind the gap in front of `next`. -/
def gapLimit (a : Aspace w shift) (next : Option Region) : ℕ :=
  next.elim (a.base + a.size) Region.base

section Gap

variable {prev next : Option Region}

theorem gapLimit_le (hnext : ∀ q ∈ next, Fits a q) : gapLimit a next ≤ a.base + a.size := by
  cases next with
  | none => exact le_rfl
  | some q =>
    have := (hnext q rfl).end_le
    simp only [gapLimit, Option.elim_some]
    omega

theorem le_gapBase (hprev : ∀ q ∈ prev, Fits a q) : a.base ≤ gapBase a prev := by
  cases prev with
  | none => exact le_rfl
  | some q =>
    have := (hprev q rfl).base_ge
    simp only [gapBase, Option.elim_some]
    omega

theorem gapBase_mod :
    (prev.elim a.base fun prev => addW w prev.base prev.size) = gapBase a prev % 2 ^ w := by
  cases prev with
  | none =>
    have := a.end_le
    have := a.size_pos
    exact (Nat.mod_eq_of_lt (show a.base < 2 ^ w by omega)).symm
  | some q => rfl

theorem gapLimit_sub_one (hnext : ∀ q ∈ next, Fits a q) (hpos : 0 < gapLimit a next) :
    (next.elim (lastW w a.base a.size) fun next => subW w next.base 1) = gapLimit a next - 1 := by
  cases next with
  | none => exact lastW_aspace a
  | some q =>
    have h₁ := (hnext q rfl).end_le
    have h₂ := (hnext q rfl).size_pos
    have h₃ := a.end_le
    simp only [gapLimit, Option.elim_some] at hpos ⊢
    exact subW_of_le (by omega) hpos

/-- Two regions without a gap, or a region at the end of the address space. -/
theorem checkGap_of_eq (pick : Gap → ℕ) (hnext : ∀ q ∈ next, Fits a q)
    (heq : gapBase a prev = gapLimit a next) :
    checkGap pick a prev next align size archMmuFlags =
      if next.isNone then .notFound else .nextGap := by
  have hend := a.end_le
  unfold checkGap
  simp only [gapBase_mod, heq]
  cases next with
  | none => simp [gapLimit, addW]
  | some q =>
    have h₁ := (hnext q rfl).end_le
    have h₂ := (hnext q rfl).size_pos
    have hmod : q.base % 2 ^ w = q.base := Nat.mod_eq_of_lt (by omega)
    simp [gapLimit, hmod]

/-- Between the bounds of a gap the words are the numbers. -/
theorem checkGap_of_lt (hprev : ∀ q ∈ prev, Fits a q) (hnext : ∀ q ∈ next, Fits a q)
    (hlt : gapBase a prev < gapLimit a next) (hpick : roundup w (gapBase a prev) align < 2 ^ w) :
    checkGap (archMmuPickSpot w) a prev next align size archMmuFlags =
      let pva := roundup w (gapBase a prev) align
      if pva < gapBase a prev then .notFound
      else if pva < gapLimit a next - 1 ∧ size ≤ gapLimit a next - pva then .found pva
      else .nextGap := by
  have hend := a.end_le
  have halt := a.size_lt
  have hlimit := gapLimit_le hnext
  have hbase := le_gapBase hprev
  have hmod : gapBase a prev % 2 ^ w = gapBase a prev := Nat.mod_eq_of_lt (by omega)
  unfold checkGap
  simp only [gapBase_mod, hmod, gapLimit_sub_one hnext (by omega), archMmuPickSpot,
    Nat.mod_eq_of_lt hpick]
  have h₁ : ¬next.any (fun next => gapBase a prev = next.base) = true := by
    cases next with
    | none => simp
    | some q =>
      simp only [gapLimit, Option.elim_some] at hlt
      simp only [Option.any_some, decide_eq_true_eq]
      omega
  have h₂ : ¬(next.isNone = true ∧ gapBase a prev = addW w a.base a.size) := by
    rintro ⟨hnone, heq⟩
    obtain rfl := Option.isNone_iff_eq_none.1 hnone
    simp only [gapLimit, Option.elim_none] at hlt
    rcases Nat.lt_or_eq_of_le hend with hlt' | htop
    · rw [addW_of_lt hlt'] at heq
      omega
    · rw [addW, htop, Nat.mod_self] at heq
      omega
  rw [if_neg h₁, if_neg h₂]
  generalize roundup w (gapBase a prev) align = pva
  by_cases hwrap : pva < gapBase a prev
  · rw [if_pos hwrap, if_pos hwrap]
  rw [if_neg hwrap, if_neg hwrap]
  have hroom : pva < gapLimit a next - 1 ∧ size ≤ addW w (subW w (gapLimit a next - 1) pva) 1 ↔
      pva < gapLimit a next - 1 ∧ size ≤ gapLimit a next - pva := by
    refine and_congr_right fun hpva => ?_
    rw [subW_of_le (by omega) hpva.le, addW_of_lt (by omega),
      show gapLimit a next - 1 - pva + 1 = gapLimit a next - pva by omega]
  simp only [hroom]

/-- **What one gap says.**  A spot is the lowest there is from the gap on; with no spot
there is none in the gap; and an alignment that wraps around leaves none up to the end of
the address space. -/
theorem checkGap_spec (ha : 0 < align) (hdvd : align ∣ 2 ^ w) (hsize : 1 < size)
    (hprev : ∀ q ∈ prev, Fits a q) (hnext : ∀ q ∈ next, Fits a q)
    (horder : gapBase a prev ≤ gapLimit a next) :
    match checkGap (archMmuPickSpot w) a prev next align size archMmuFlags with
    | .found v => align ∣ v ∧ gapBase a prev ≤ v ∧ v + size ≤ gapLimit a next ∧
        ∀ u, align ∣ u → gapBase a prev ≤ u → v ≤ u
    | .nextGap => ∀ u, align ∣ u → gapBase a prev ≤ u → ¬u + size ≤ gapLimit a next
    | .notFound => ∀ u, align ∣ u → gapBase a prev ≤ u → ¬u + size ≤ a.base + a.size := by
  have hend := a.end_le
  have hlimit := gapLimit_le hnext
  rcases Nat.lt_or_eq_of_le horder with hlt | heq
  · obtain ⟨hge, hleast⟩ := le_roundup (n := gapBase a prev) ha
    have hround := roundup_cases ha hdvd (show gapBase a prev < 2 ^ w by omega)
    obtain ⟨hpva, hpick⟩ | ⟨hzero, hover⟩ := hround
    · rw [checkGap_of_lt hprev hnext hlt hpick]
      simp only [hpva]
      rw [if_neg (by omega)]
      by_cases hroom : (gapBase a prev + (align - 1)) / align * align < gapLimit a next - 1 ∧
          size ≤ gapLimit a next - (gapBase a prev + (align - 1)) / align * align
      · rw [if_pos hroom]
        exact ⟨Dvd.intro_left _ rfl, hge, by omega, hleast⟩
      · rw [if_neg hroom]
        intro u hu hbu hfit
        have := hleast u hu hbu
        omega
    · rw [checkGap_of_lt hprev hnext hlt (by rw [hzero]; exact Nat.two_pow_pos w)]
      simp only [hzero]
      -- the lowest multiple lies behind the top of the address range
      have hpos : 0 < gapBase a prev := by
        by_contra h0
        rw [show gapBase a prev = 0 by omega, Nat.zero_add, Nat.div_eq_of_lt (by omega)] at hover
        have := Nat.two_pow_pos w
        omega
      rw [if_pos hpos]
      intro u hu hbu hfit
      have := hleast u hu hbu
      omega
  · rw [checkGap_of_eq _ hnext heq]
    cases next with
    | none =>
      simp only [gapLimit, Option.elim_none] at heq
      intro u hu hbu hfit
      omega
    | some q =>
      intro u hu hbu hfit
      omega

end Gap

/-! ### The search -/

/-- A spot behind `prev`, where the regions `rest` follow. -/
structure SpotBehind (a : Aspace w shift) (prev : Option Region) (rest : List Region)
    (size align v : ℕ) : Prop where
  aligned : align ∣ v
  base_le : gapBase a prev ≤ v
  end_le : v + size ≤ a.base + a.size
  apart : ∀ q ∈ rest, q.base + q.size ≤ v ∨ v + size ≤ q.base

/-- The address found is aligned and the lowest of those with `P`; without one there is
none. -/
def Lowest (align : ℕ) (P : ℕ → Prop) : Option (ℕ × ℕ) → Prop
  | some (spot, _) => align ∣ spot ∧ ∀ v, P v → spot ≤ v
  | none => ∀ v, ¬P v

/-- With no spot in the gap, the spots behind `prev` are those behind the next region. -/
theorem SpotBehind.next {prev : Option Region} {rest : List Region} {v : ℕ}
    (hv : SpotBehind a prev rest size align v)
    (hgap : ∀ u, align ∣ u → gapBase a prev ≤ u → ¬u + size ≤ gapLimit a rest.head?) :
    ∃ q rest', rest = q :: rest' ∧ SpotBehind a (some q) rest' size align v := by
  have hnot := hgap v hv.aligned hv.base_le
  cases rest with
  | nil => exact absurd hv.end_le hnot
  | cons q rest =>
    obtain hle | hle := hv.apart q List.mem_cons_self
    · exact ⟨q, rest, rfl, hv.aligned, hle, hv.end_le,
        fun q' hq' => hv.apart q' (List.mem_cons_of_mem _ hq')⟩
    · exact absurd hle hnot

/-- One gap of the search and, where it has no spot, what is found behind the next region. -/
theorem lowest_step (ha : 0 < align) (hdvd : align ∣ 2 ^ w) (hsize : 1 < size)
    {prev : Option Region} {rest : List Region} (hprev : ∀ q ∈ prev, Fits a q)
    (hrest : ∀ q ∈ rest, Fits a q) (horder : gapBase a prev ≤ gapLimit a rest.head?) (k : ℕ)
    {found : Option (ℕ × ℕ)} (hnil : rest = [] → found = none)
    (hnext : ∀ q rest', rest = q :: rest' →
      Lowest align (SpotBehind a (some q) rest' size align) found) :
    Lowest align (SpotBehind a prev rest size align)
      (match checkGap (archMmuPickSpot w) a prev rest.head? align size archMmuFlags with
        | .found spot => some (spot, k)
        | .notFound => none
        | .nextGap => found) := by
  have hspec := @checkGap_spec w shift a size align archMmuFlags prev rest.head? ha hdvd hsize
    hprev (fun q hq => hrest q (List.mem_of_mem_head? hq)) horder
  cases hcheck : checkGap (archMmuPickSpot w) a prev rest.head? align size archMmuFlags with
  | found spot =>
    rw [hcheck] at hspec
    exact ⟨hspec.1, fun v hv => hspec.2.2.2 v hv.aligned hv.base_le⟩
  | notFound =>
    rw [hcheck] at hspec
    exact fun v hv => hspec v hv.aligned hv.base_le hv.end_le
  | nextGap =>
    rw [hcheck] at hspec
    cases found with
    | none =>
      intro v hv
      obtain ⟨q, rest', heq, hv'⟩ := hv.next hspec
      exact hnext q rest' heq v hv'
    | some found =>
      cases rest with
      | nil => cases hnil rfl
      | cons q rest =>
        obtain ⟨halign, hleast⟩ := hnext q rest rfl
        refine ⟨halign, fun v hv => ?_⟩
        obtain ⟨q', rest', heq, hv'⟩ := hv.next hspec
        obtain ⟨rfl, rfl⟩ := List.cons.inj heq
        exact hleast v hv'

/-- The loop of `alloc_spot` finds the lowest spot behind the region it stands at. -/
theorem allocSpotAfter_lowest (ha : 0 < align) (hdvd : align ∣ 2 ^ w) (hsize : 1 < size)
    (n : ℕ) (prev : Region) (rest : List Region) (h : Inv a (prev :: rest)) :
    Lowest align (SpotBehind a (some prev) rest size align)
      (allocSpotAfter (archMmuPickSpot w) a align size archMmuFlags n (prev :: rest)) := by
  have hfits : ∀ q ∈ rest, Fits a q := fun q hq => h.fits q (List.mem_cons_of_mem _ hq)
  have hprev : ∀ q ∈ some prev, Fits a q := fun q hq => by
    cases hq
    exact h.fits _ List.mem_cons_self
  induction rest generalizing n prev with
  | nil =>
    rw [allocSpotAfter]
    exact lowest_step ha hdvd hsize hprev hfits (hprev prev rfl).end_le _ (fun _ => rfl)
      (fun q rest' heq => by cases heq)
  | cons q rest ih =>
    rw [allocSpotAfter]
    have horder := (List.pairwise_cons.1 h.order).1 q List.mem_cons_self
    refine lowest_step ha hdvd hsize hprev hfits horder _ (fun heq => by cases heq) ?_
    intro q' rest' heq
    obtain ⟨rfl, rfl⟩ := List.cons.inj heq
    refine ih (n + 1) q h.tail (fun q' hq' => hfits q' (List.mem_cons_of_mem _ hq')) ?_
    intro q' hq'
    cases hq'
    exact hfits _ List.mem_cons_self

/-- `alloc_spot` finds the lowest spot. -/
theorem allocSpot_lowest (h : Inv a l) (hsize : 1 < size) {alignPow2 : ℕ}
    (halign : max alignPow2 shift < w) :
    Lowest (2 ^ max alignPow2 shift) (Spot a l size (2 ^ max alignPow2 shift))
      (allocSpot (archMmuPickSpot w) a size alignPow2 archMmuFlags l) := by
  have ha : 0 < 2 ^ max alignPow2 shift := Nat.two_pow_pos _
  have hdvd : 2 ^ max alignPow2 shift ∣ 2 ^ w := pow_dvd_pow 2 halign.le
  have hmod : 2 ^ max alignPow2 shift % 2 ^ w = 2 ^ max alignPow2 shift :=
    Nat.mod_eq_of_lt (Nat.pow_lt_pow_right (by norm_num) halign)
  have hspot : ∀ v, Spot a l size (2 ^ max alignPow2 shift) v ↔
      SpotBehind a none l size (2 ^ max alignPow2 shift) v :=
    fun v => ⟨fun h => ⟨h.aligned, h.base_le, h.end_le, h.apart⟩,
      fun h => ⟨h.aligned, h.base_le, h.end_le, h.apart⟩⟩
  have horder : gapBase a none ≤ gapLimit a l.head? := by
    cases l with
    | nil => exact Nat.le_add_right _ _
    | cons q l => exact (h.fits q List.mem_cons_self).base_ge
  rw [show Spot a l size (2 ^ max alignPow2 shift) = _ from funext fun v => propext (hspot v)]
  simp only [allocSpot, hmod]
  refine lowest_step ha hdvd hsize (fun q hq => by cases hq) h.fits horder _ ?_ ?_
  · rintro rfl
    rfl
  · rintro q rest rfl
    exact allocSpotAfter_lowest ha hdvd hsize 0 q rest h

/-- `before` is a node of the list. -/
theorem allocSpot_le_length {pick : Gap → ℕ} (h : Inv a l) (hlt : size < 2 ^ w)
    {alignPow2 spot k : ℕ}
    (hfound : allocSpot pick a size alignPow2 archMmuFlags l = some (spot, k)) : k ≤ l.length := by
  simp only [allocSpot] at hfound
  split at hfound
  · obtain ⟨-, rfl⟩ := Prod.mk.inj (Option.some.inj hfound)
    exact Nat.zero_le _
  · cases hfound
  · obtain ⟨l₁, l₂, rfl, rfl, -⟩ := allocSpotAfter_spec hlt h hfound
    simp

/-- **Virtual gap search is exact first fit.**  Whatever regions the address space holds,
wherever it lies and whatever the size in pages and the alignment, `alloc_spot` finds the
lowest aligned address with room for the size, says behind which region it belongs, and
returns `-1` exactly when there is no such address.  Pages have more than one byte, and the
alignment is one that `1UL << align_pow2` can express. -/
theorem allocSpot_firstFit (hshift : 0 < shift) (h : Inv a l) (hpos : 0 < size)
    (hdvd : 2 ^ shift ∣ size) (hlt : size < 2 ^ w) {alignPow2 : ℕ} (halign : alignPow2 < w) :
    FirstFit a l size (2 ^ max alignPow2 shift)
      (allocSpot (archMmuPickSpot w) a size alignPow2 archMmuFlags l) := by
  have hpage : 2 ^ 1 ≤ 2 ^ shift := Nat.pow_le_pow_right (by norm_num) hshift
  have hle := Nat.le_of_dvd hpos hdvd
  have hshiftw : shift < w := (Nat.pow_lt_pow_iff_right (by norm_num)).1 (hle.trans_lt hlt)
  have hleast : Lowest _ _ (allocSpot (archMmuPickSpot w) a size alignPow2 archMmuFlags l) :=
    allocSpot_lowest h (show 1 < size by omega) (max_lt halign hshiftw)
  cases hfound : allocSpot (archMmuPickSpot w) a size alignPow2 archMmuFlags l with
  | none =>
    rw [hfound] at hleast
    exact hleast
  | some found =>
    obtain ⟨spot, k⟩ := found
    rw [hfound] at hleast
    obtain ⟨hge, hend, hbefore, hafter⟩ := allocSpot_spec h hlt hfound
    have haend := a.end_le
    refine ⟨⟨hleast.1, hge, hend, fun q hq => ?_⟩, hleast.2, ?_, ?_, by omega⟩
    · rw [← List.take_append_drop k l] at hq
      exact (List.mem_append.1 hq).imp (hbefore q) (hafter q)
    · exact allocSpot_le_length h hlt hfound
    · rintro r rfl rfl
      exact Inv.insert (by rwa [List.take_append_drop]) ⟨hpos, hdvd, hge, hend⟩ hbefore hafter

end Spot

/-- A page at the bottom of the kernel address space and the page at its top. -/
def bothEnds : List Region :=
  [⟨0xffff000000000000, 0x1000, 0, 0⟩, ⟨0xfffffffffffff000, 0x1000, 0, 0⟩]

theorem inv_bothEnds : Inv kernelAspace bothEnds where
  fits r hr := by
    obtain rfl | hr := List.mem_cons.1 hr
    · exact ⟨by decide, by decide, by decide, by decide⟩
    · obtain rfl := List.mem_singleton.1 hr
      exact ⟨by decide, by decide, by decide, by decide⟩
  order := by simp [bothEnds]

/-- Two megabytes aligned to as much go behind the first region. -/
theorem allocSpot_firstFit_bothEnds :
    FirstFit kernelAspace bothEnds 0x200000 (2 ^ max 21 12) (some (0xffff000000200000, 1)) :=
  @allocSpot_firstFit 64 12 kernelAspace bothEnds 0x200000 0 (by decide) inv_bothEnds (by decide)
    (by decide) (by decide) 21 (by decide)

end Vmm
end LittleKernel
