/-
# The translation function

What `arm64_mmu_map` and `arm64_mmu_unmap` are for: the answers of
`arch_mmu_query` as a function of the address.  `page_tables_refine`: over any
run of calls, with the page allocator failing whenever it likes, a map that
succeeds sets the answers of its range and no other, a map that fails changes
none, and an unmap makes exactly its range untranslated.

The calls are those whose attributes hold no bit of a descriptor's type or
address, whose physical range lies in the 48 bits a descriptor has for it, and
whose unmapped range cuts no block and no page.  `arm64_mmu_map` and
`arm64_mmu_unmap` check none of these: `map_beyond_descriptor` has a physical
address that does not fit, the attributes that `mmu_flags_to_pte_attr` returns
for a cache type that does not exist, and the unmapping of a single byte.
-/

import LittleKernel.Arm64.Map
import LittleKernel.Lib.Machine

namespace LittleKernel
namespace Arm64

open Word Machine

variable (A : Aspace)

/-- The entries of the top table. -/
def Aspace.entries : ℕ := 2 ^ (A.topSizeShift - indexShift A.pageSizeShift A.topLevel)

/-- A call, with what the page allocator will answer. -/
inductive MmuAct where
  | map (vaddr paddr size attrs : ℕ) (pool : List (Option ℕ))
  | unmap (vaddr size : ℕ)
  deriving DecidableEq

/-- One call. -/
def mmuStep (s : Tables) : MmuAct → Option (Tables × MmuRet)
  | .map vaddr paddr size attrs pool => arm64MmuMap A { s with pool := pool } vaddr paddr size attrs
  | .unmap vaddr size => some (arm64MmuUnmap A s vaddr size)

/-- What a call does to the answers. -/
def Translates (τ : ℕ → Answer) : MmuAct → MmuRet → (ℕ → Answer) → Prop
  | .map vaddr paddr size attrs _, ret, τ' =>
    τ' = if ret = .ok then fun v =>
        if (vaddr ≤ v ∧ v < vaddr + size) ∧ A.IsValidVaddr v then
          (mmuFlags attrs).elim .panic (.found (paddr + (v - vaddr)))
        else τ v
      else τ
  | .unmap vaddr size, ret, τ' =>
    τ' = if ret = .ok then fun v =>
        if (vaddr ≤ v ∧ v < vaddr + size) ∧ A.IsValidVaddr v then .notFound else τ v
      else τ

/-- A call with addresses of 64 bits, of which a map has attributes and a physical range
that fit a descriptor, and an unmap cuts no mapping. -/
def Fits (s : Tables) : MmuAct → Prop
  | .map vaddr paddr size attrs _ => vaddr < 2 ^ 64 ∧ IsAttrs attrs ∧ paddr + size ≤ 2 ^ 48
  | .unmap vaddr size => vaddr < 2 ^ 64 ∧ (¬ A.OutOfSpace vaddr size →
      Whole A.pageSizeShift s.pte A.topLevel A.ttVirt (sub64 vaddr A.vaddrBase)
        (sub64 vaddr A.vaddrBase + size))

/-- The top table is in use and empty. -/
def Aspace.Empty (s : Tables) : Prop := s.live A.ttVirt = true ∧ ∀ i, s.pte A.ttVirt i = 0

/-- The tables below the top table. -/
def Aspace.Inv (s : Tables) : Prop :=
  ∃ S, Owns A.pageSizeShift s A.topLevel A.entries A.ttVirt S

section Aspace

variable {A} {s : Tables}

theorem Aspace.Empty.inv (h : A.Empty s) : A.Inv s := by
  refine ⟨{A.ttVirt}, isTable_clear _ _ _ fun i _ => h.2 i, fun a ha => ?_⟩
  obtain rfl : a = A.ttVirt := ha
  exact h.1

theorem Aspace.entries_mul (A : Aspace) :
    A.entries * span A.pageSizeShift A.topLevel = 2 ^ A.topSizeShift := by
  rw [Aspace.entries, span, ← pow_add]
  congr 1
  have := A.top_le
  omega

theorem pow_le_48 (A : Aspace) : 2 ^ A.topSizeShift ≤ 2 ^ 48 :=
  Nat.pow_le_pow_right (by omega) A.size_le

theorem sub64_eq {a b : ℕ} (ha : a < 2 ^ 64) (hb : b ≤ a) : sub64 a b = a - b := by
  simp only [sub64, u64]
  omega

/-- The offset of an address of the space. -/
theorem Aspace.IsValidVaddr.offset {v : ℕ} (h : A.IsValidVaddr v) :
    A.vaddrBase ≤ v ∧ v - A.vaddrBase < 2 ^ A.topSizeShift ∧
      sub64 v A.vaddrBase = v - A.vaddrBase := by
  have h₁ := A.base_le
  have h₂ := A.end_le
  have h₃ := A.fits
  obtain ⟨hl, hh⟩ := h
  have hv : v < 2 ^ 64 := by omega
  exact ⟨by omega, by omega, sub64_eq hv (by omega)⟩

/-- `arch_mmu_query` is the walk. -/
theorem archMmuQuery_eq (s : Tables) (v : ℕ) :
    archMmuQuery A s v = if A.IsValidVaddr v then
      (walk A.pageSizeShift s.pte A.topLevel A.ttVirt (v - A.vaddrBase)).answer
    else .outOfRange := by
  unfold archMmuQuery
  split
  · rename_i hv
    obtain ⟨-, hlt, hoff⟩ := hv.offset
    dsimp only
    rw [hoff, if_pos]
    rw [shiftRight_indexShift, ← Aspace.entries, Nat.div_lt_iff_lt_mul (span_pos ..),
      A.entries_mul]
    exact hlt
  · rfl

/-- A range that passes the check lies in the space. -/
theorem in_space {vaddr size : ℕ} (hv : vaddr < 2 ^ 64) (h : ¬ A.OutOfSpace vaddr size) :
    sub64 vaddr A.vaddrBase + size ≤ 2 ^ A.topSizeShift ∧ ∀ v, A.vaddrBase ≤ v →
      v - A.vaddrBase < 2 ^ A.topSizeShift →
      (vaddr ≤ v ∧ v < vaddr + size ↔ sub64 vaddr A.vaddrBase ≤ v - A.vaddrBase ∧
        v - A.vaddrBase < sub64 vaddr A.vaddrBase + size) ∧ (vaddr ≤ v ∧ v < vaddr + size →
        v - A.vaddrBase - sub64 vaddr A.vaddrBase = v - vaddr) := by
  have hfits := A.fits
  have h48 := pow_le_48 A
  simp only [Aspace.OutOfSpace, not_or, not_lt] at h
  obtain ⟨hrel, hsize⟩ := h
  rw [sub64_eq (by omega) hsize] at hrel
  refine ⟨by omega, fun v hbase hlt => ?_⟩
  rcases Nat.eq_zero_or_pos size with rfl | hpos
  · omega
  · -- the base is not above the address, or the difference would wrap beyond the space
    have hle : A.vaddrBase ≤ vaddr := by
      by_contra hgt
      have hwrap : sub64 vaddr A.vaddrBase = vaddr + 2 ^ 64 - A.vaddrBase := by
        simp only [sub64, u64]
        omega
      omega
    rw [sub64_eq hv hle]
    omega

/-- **One call.** -/
theorem Aspace.Inv.step (h : A.Inv s) {a : MmuAct} (hok : Fits A s a) :
    ∃ s' ret, mmuStep A s a = some (s', ret) ∧
      Translates A (archMmuQuery A s) a ret (archMmuQuery A s') ∧ A.Inv s' := by
  obtain ⟨S, hown⟩ := h
  cases a with
  | map vaddr paddr size attrs pool =>
    obtain ⟨hv, hattrs, hpaddr⟩ := hok
    have hown' : Owns A.pageSizeShift { s with pool := pool } A.topLevel A.entries A.ttVirt S :=
      ⟨hown.isTable, hown.live⟩
    by_cases hin : A.OutOfSpace vaddr size
    · refine ⟨{ s with pool := pool }, .errInvalidArgs, if_pos hin, ?_, S, hown'⟩
      simp only [Translates, reduceCtorEq, if_false]
      rfl
    · have hstep : mmuStep A s (.map vaddr paddr size attrs pool) = _ := if_neg hin
      rw [hstep]
      obtain ⟨hle, hrange⟩ := in_space hv hin
      obtain ⟨s', ret, hmap, hmapped, hsame⟩ := mapPt_spec hattrs A.page_ge A.page_le A.topLevel
        A.entries _ A.ttVirt S (sub64 vaddr A.vaddrBase) paddr size hown'
        (by rw [A.entries_mul]; exact hle) hpaddr
      refine ⟨s', ret, hmap, ?_, ?_⟩
      · unfold Translates
        funext v
        rw [archMmuQuery_eq]
        by_cases hret : ret = .ok
        · rw [if_pos hret]
          obtain ⟨S', -, hr⟩ := hmapped hret
          by_cases hval : A.IsValidVaddr v
          · obtain ⟨hbase, hlt, -⟩ := hval.offset
            obtain ⟨hiff, hoff⟩ := hrange v hbase hlt
            rw [if_pos hval, archMmuQuery_eq, if_pos hval]
            by_cases hin' : vaddr ≤ v ∧ v < vaddr + size
            · rw [if_pos ⟨hin', hval⟩]
              obtain ⟨k, w, hw, hflags⟩ := hr.maps _ (hiff.1 hin').1 (hiff.1 hin').2
              rw [hw, Walk.answer, hflags, hoff hin']
            · rw [if_neg fun hc => hin' hc.1]
              rw [hr.others _ (by rw [A.entries_mul]; exact hlt) fun hc => hin' (hiff.2 hc)]
          · rw [if_neg hval, if_neg fun hc => hval hc.2, archMmuQuery_eq, if_neg hval]
        · rw [if_neg hret, archMmuQuery_eq]
          obtain ⟨S', -, -, hwalk⟩ := hsame hret
          by_cases hval : A.IsValidVaddr v
          · obtain ⟨-, hlt, -⟩ := hval.offset
            rw [if_pos hval, if_pos hval, hwalk _ (by rw [A.entries_mul]; exact hlt)]
          · rw [if_neg hval, if_neg hval]
      · by_cases hret : ret = .ok
        · obtain ⟨S', -, hr⟩ := hmapped hret
          exact ⟨S', hr.owns⟩
        · obtain ⟨S', hown'', -⟩ := hsame hret
          exact ⟨S', hown''⟩
  | unmap vaddr size =>
    obtain ⟨hv, hwhole⟩ := hok
    by_cases hin : A.OutOfSpace vaddr size
    · refine ⟨s, .errInvalidArgs, congrArg some (if_pos hin), ?_, S, hown⟩
      simp only [Translates, reduceCtorEq, if_false]
    · have hstep : mmuStep A s (.unmap vaddr size) = _ := congrArg some (if_neg hin)
      rw [hstep]
      obtain ⟨hle, hrange⟩ := in_space hv hin
      obtain ⟨S', hown', -, hwalk⟩ :=
        unmapPt_cleared hown (by rw [A.entries_mul]; exact hle) (hwhole hin)
      refine ⟨_, _, rfl, ?_, S', hown'⟩
      unfold Translates
      funext v
      rw [if_pos rfl, archMmuQuery_eq, archMmuQuery_eq]
      by_cases hval : A.IsValidVaddr v
      · obtain ⟨hbase, hlt, -⟩ := hval.offset
        obtain ⟨hiff, -⟩ := hrange v hbase hlt
        rw [if_pos hval, if_pos hval, hwalk _ (by rw [A.entries_mul]; exact hlt)]
        by_cases hin' : vaddr ≤ v ∧ v < vaddr + size
        · rw [if_pos (hiff.1 hin'), if_pos ⟨hin', hval⟩]
          rfl
        · rw [if_neg fun hc => hin' (hiff.2 hc), if_neg fun hc => hin' hc.1]
      · rw [if_neg hval, if_neg hval, if_neg fun hc => hval hc.2]

end Aspace

/-- **The page tables refine the translation function**, over any run of calls that fit. -/
theorem page_tables_refine (s : Tables) (hs : A.Empty s) (as : List MmuAct)
    (hok : Along (fun s a => (mmuStep A s a).map Prod.fst) (Fits A) s as) :
    ∃ s' rets, trace (mmuStep A) s as = some (s', rets) ∧
      Accepts (Translates A) (archMmuQuery A s) as rets (archMmuQuery A s') := by
  obtain ⟨s', rets, htr, hacc, -⟩ :=
    trace_accepted (fun _ _ h hok => Aspace.Inv.step h hok) as s hs.inv hok
  exact ⟨s', rets, htr, hacc⟩

/-- The addresses of one page share their descriptor. -/
theorem walk_page {ps n p o o' k v a : ℕ} {m : ℕ → ℕ → ℕ} (ho : o' / 2 ^ ps = o / 2 ^ ps)
    (h : walk ps m n p o = .leaf k v a) : ∃ a', walk ps m n p o' = .leaf k v a' := by
  induction n generalizing p o o' with
  | zero =>
    rw [walk_eq] at h ⊢
    rw [div_span_eq (by simp [indexShift]) ho]
    unfold walkEntry at h ⊢
    dsimp only at h ⊢
    split_ifs at h ⊢
    cases h
    exact ⟨_, rfl⟩
  | succ n ih =>
    rw [walk_eq] at h ⊢
    rw [div_span_eq (by simp [indexShift]) ho]
    unfold walkEntry at h ⊢
    dsimp only at h ⊢
    split_ifs at h ⊢
    · cases h
      exact ⟨_, rfl⟩
    · exact ih (mod_span_div (by simp [indexShift]) ho) h

/-- A page on a page boundary. -/
theorem whole_page {ps n p lo v a : ℕ} {m : ℕ → ℕ → ℕ} (hlo : 2 ^ ps ∣ lo)
    (h : walk ps m n p lo = .leaf ps v a) : Whole ps m n p lo (lo + 2 ^ ps) := by
  have hpos := Nat.two_pow_pos ps
  intro o hl hh k v' a' hw o' hd
  rw [← Nat.div_mul_cancel hlo] at hl hh ⊢
  have ho := (mem_span hpos).1 ⟨hl, hh⟩
  obtain ⟨b, hb⟩ := walk_page ho.symm hw
  rw [h] at hb
  cases hb
  exact (mem_span hpos).2 (hd.trans ho)

/-- A kernel space of the smallest size, `MMU_KERNEL_SIZE_SHIFT` 25. -/
def smallKernel : Aspace where
  base := 2 ^ 64 - 2 ^ 25
  size := 2 ^ 25
  vaddrBase := 2 ^ 64 - 2 ^ 25
  topSizeShift := 25
  topLevel := 1
  pageSizeShift := 12
  ttVirt := 0x1000
  page_ge := by decide
  page_le := by decide
  top_le := by decide
  size_le := by decide
  fits := by decide
  base_le := by decide
  end_le := by decide

/-- Its top table, empty. -/
def smallTables : Tables := ⟨fun _ _ => 0, fun a => decide (a = 0x1000), []⟩

/-- A block of 2 MB and a page are mapped; a map that meets the page fails after its first
page, and one fails for want of a table. -/
def smallMaps : List MmuAct :=
  [.map (2 ^ 64 - 2 ^ 24) 0x40000000 0x200000 0x708 [],
    .map (2 ^ 64 - 2 ^ 25 + 0x1000) 0x5000 0x1000 0x708 [some 0x2000],
    .map (2 ^ 64 - 2 ^ 25) 0x8000 0x2000 0x708 [],
    .map (2 ^ 64 - 2 ^ 23) 0x8000 0x2000 0x708 [none]]

/-- Then the page is unmapped. -/
theorem page_tables_refine_smallMaps :
    ∃ s' rets, trace (mmuStep smallKernel) smallTables
        (smallMaps ++ [.unmap (2 ^ 64 - 2 ^ 25 + 0x1000) 0x1000]) = some (s', rets) ∧
      Accepts (Translates smallKernel) (archMmuQuery smallKernel smallTables)
        (smallMaps ++ [.unmap (2 ^ 64 - 2 ^ 25 + 0x1000) 0x1000]) rets
        (archMmuQuery smallKernel s') := by
  refine page_tables_refine smallKernel smallTables ⟨rfl, fun _ => rfl⟩ _ (.concat ?_ ?_)
  · exact ⟨⟨by decide, by decide, by decide⟩, fun _ _ => ⟨⟨by decide, by decide, by decide⟩,
      fun _ _ => ⟨⟨by decide, by decide, by decide⟩, fun _ _ => ⟨⟨by decide, by decide, by decide⟩,
        fun _ _ => trivial⟩⟩⟩⟩
  · intro s hs
    refine ⟨by decide, fun _ => ?_⟩
    have hpage : (run (fun s a => (mmuStep smallKernel s a).map Prod.fst) smallTables smallMaps).map
        (fun s => walk 12 s.pte 1 0x1000 0x1000) = some (.leaf 12 0x570b 0x5000) := by
      decide +kernel
    rw [hs] at hpage
    exact whole_page (by decide) (Option.some.inj hpage)

/-- **Outside what a descriptor holds.**  A physical address beyond 48 bits, and attributes
that are an error code, are mapped to something else; and the unmapping of one byte takes
the page. -/
theorem map_beyond_descriptor :
    (mmuStep smallKernel smallTables
        (.map (2 ^ 64 - 2 ^ 25) (2 ^ 48) 0x1000 (mmuFlagsToPteAttr 0) [some 0x2000])).map
          (fun r => (r.2, archMmuQuery smallKernel r.1 (2 ^ 64 - 2 ^ 25))) =
        some (.ok, .found 0 0) ∧ (mmuStep smallKernel smallTables
        (.map (2 ^ 64 - 2 ^ 25) 0x5000 0x1000 (mmuFlagsToPteAttr 3) [some 0x2000])).map
          (fun r => (r.2, archMmuQuery smallKernel r.1 (2 ^ 64 - 2 ^ 25))) = some (.ok, .panic) ∧
      (trace (mmuStep smallKernel) smallTables
        [.map (2 ^ 64 - 2 ^ 25) 0x5000 0x1000 (mmuFlagsToPteAttr 0) [some 0x2000],
          .unmap (2 ^ 64 - 2 ^ 25) 1]).map
          (fun r => (r.2, archMmuQuery smallKernel r.1 (2 ^ 64 - 2 ^ 25 + 1))) =
        some ([.ok, .ok], .notFound) := by
  decide +kernel

end Arm64
end LittleKernel
