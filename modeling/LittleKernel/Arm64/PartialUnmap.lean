/-
# Unmapping a part of a mapping

`arm64_mmu_unmap` of a range that `arm64_mmu_map` did not map as such.  Whether an area
is mapped by pages or by blocks depends on how the addresses of the earlier calls were
aligned.  `arm64_mmu_unmap_pt` clears a block descriptor it meets whatever part of the
block the range covers, where `arm64_mmu_map_pt`, in a like case, refuses to work below a
block.  `unmap_keeps_rest_iff`: the rest of the space is translated as before exactly when
no descriptor maps an address of the range and one outside.
-/

import LittleKernel.Arm64.Translation

namespace LittleKernel
namespace Arm64

open Word Machine

variable (A : Aspace)

/-- The top table covers `v`. -/
def Aspace.Covers (v : ℕ) : Prop := A.vaddrBase ≤ v ∧ v - A.vaddrBase < 2 ^ A.topSizeShift

/-- The translation of an address that the top table covers. -/
def Aspace.translate (s : Tables) (v : ℕ) : Walk :=
  walk A.pageSizeShift s.pte A.topLevel A.ttVirt (v - A.vaddrBase)

/-- **The rest is kept**: the unmap succeeds, and every address outside the range is
translated as before; or it reports an error and changes nothing. -/
def KeepsRest (s : Tables) (vaddr size : ℕ) : Prop :=
  ((arm64MmuUnmap A s vaddr size).2 = .ok ∧ ∀ v, A.Covers v → ¬(vaddr ≤ v ∧ v < vaddr + size) →
      A.translate (arm64MmuUnmap A s vaddr size).1 v = A.translate s v) ∨
    ((arm64MmuUnmap A s vaddr size).2 ≠ .ok ∧ (arm64MmuUnmap A s vaddr size).1 = s)

/-- No block and no page that is mapped lies on both sides of an end of the range. -/
def CutsNothing (s : Tables) (vaddr size : ℕ) : Prop :=
  ∀ v, A.Covers v → vaddr ≤ v → v < vaddr + size → ∀ k pte a, A.translate s v = .leaf k pte a →
    ∀ v', A.Covers v' → (v' - A.vaddrBase) / 2 ^ k = (v - A.vaddrBase) / 2 ^ k →
      vaddr ≤ v' ∧ v' < vaddr + size

/-- A call with addresses of 64 bits, of which a map has attributes and a physical range
that fit a descriptor. -/
def Describable : MmuAct → Prop
  | .map vaddr paddr size attrs _ => vaddr < 2 ^ 64 ∧ IsAttrs attrs ∧ paddr + size ≤ 2 ^ 48
  | .unmap vaddr _ => vaddr < 2 ^ 64

section Proof

variable {A} {s : Tables}

/-- **One call**, whatever an unmap cuts. -/
theorem Aspace.Inv.call (h : A.Inv s) {a : MmuAct} {s' : Tables} {ret : MmuRet}
    (hok : Describable a) (hs : mmuStep A s a = some (s', ret)) : A.Inv s' := by
  cases a with
  | map vaddr paddr size attrs pool =>
    obtain ⟨s₁, ret₁, h₁, -, hinv⟩ := h.step (a := .map vaddr paddr size attrs pool) hok
    rw [h₁] at hs
    cases hs
    exact hinv
  | unmap vaddr size =>
    by_cases hin : A.OutOfSpace vaddr size
    · have hstep : mmuStep A s (.unmap vaddr size) = some (s, .errInvalidArgs) :=
        congrArg some (if_pos hin)
      rw [hstep] at hs
      cases hs
      exact h
    · have hstep : mmuStep A s (.unmap vaddr size) = _ := congrArg some (if_neg hin)
      rw [hstep] at hs
      cases hs
      obtain ⟨S, hown⟩ := h
      obtain ⟨S', hown', -⟩ :=
        unmapPt_swept hown (by rw [A.entries_mul]; exact (in_space hok hin).1)
      exact ⟨S', hown'⟩

/-- The addresses of one block share their descriptor. -/
theorem walk_block {ps n p o o' k v a : ℕ} {m : ℕ → ℕ → ℕ} (h : walk ps m n p o = .leaf k v a)
    (ho : o' / 2 ^ k = o / 2 ^ k) : ∃ a', walk ps m n p o' = .leaf k v a' := by
  have hdiv := div_span_eq (walk_leaf_shift h) ho
  induction n generalizing p o o' with
  | zero =>
    rw [walk_eq] at h ⊢
    rw [hdiv]
    unfold walkEntry at h ⊢
    dsimp only at h ⊢
    split_ifs at h ⊢
    cases h
    exact ⟨_, rfl⟩
  | succ n ih =>
    have hshift := walk_leaf_shift h
    rw [walk_eq] at h ⊢
    rw [hdiv]
    unfold walkEntry at h ⊢
    dsimp only at h ⊢
    split_ifs at h ⊢
    · cases h
      exact ⟨_, rfl⟩
    · have hmod := mod_span_div hshift ho
      exact ih h hmod (div_span_eq (walk_leaf_shift h) hmod)

/-- What an unmap reaches, by addresses. -/
theorem Aspace.Inv.keepsRest_iff (h : A.Inv s) {vaddr size : ℕ} (hv : vaddr < 2 ^ 64)
    (hin : ¬A.OutOfSpace vaddr size) :
    KeepsRest A s vaddr size ↔ CutsNothing A s vaddr size := by
  obtain ⟨S, hown⟩ := h
  obtain ⟨hle, hrange⟩ := in_space hv hin
  obtain ⟨-, -, -, hwalk⟩ := unmapPt_swept hown (by rw [A.entries_mul]; exact hle)
  have hun : arm64MmuUnmap A s vaddr size = _ := if_neg hin
  rw [A.entries_mul] at hwalk
  have hreached : ∀ v, A.Covers v → (Reached A.pageSizeShift s.pte A.topLevel A.ttVirt
      (sub64 vaddr A.vaddrBase) (sub64 vaddr A.vaddrBase + size) (v - A.vaddrBase) ↔
      ∃ v₁, A.Covers v₁ ∧ (vaddr ≤ v₁ ∧ v₁ < vaddr + size) ∧ (v₁ = v ∨ ∃ k pte a,
        A.translate s v₁ = .leaf k pte a ∧
          (v - A.vaddrBase) / 2 ^ k = (v₁ - A.vaddrBase) / 2 ^ k)) := by
    intro v hcov
    constructor
    · rintro ⟨o₁, hl, hh, heq⟩
      have hsub : A.vaddrBase + o₁ - A.vaddrBase = o₁ := by omega
      have hcov₁ : A.Covers (A.vaddrBase + o₁) := ⟨by omega, by omega⟩
      refine ⟨A.vaddrBase + o₁, hcov₁, (hrange _ hcov₁.1 hcov₁.2).1.2 (by omega), ?_⟩
      rcases heq with rfl | ⟨k, pte, a, hw, hd⟩
      · left
        have := hcov.1
        omega
      · exact .inr ⟨k, pte, a, by rw [Aspace.translate, hsub, hw], by rw [hsub, hd]⟩
    · rintro ⟨v₁, hcov₁, hin₁, heq⟩
      obtain ⟨hl, hh⟩ := (hrange v₁ hcov₁.1 hcov₁.2).1.1 hin₁
      refine ⟨v₁ - A.vaddrBase, hl, hh, ?_⟩
      rcases heq with rfl | ⟨k, pte, a, hw, hd⟩
      · exact .inl rfl
      · exact .inr ⟨k, pte, a, hw, hd⟩
  have hkeeps : KeepsRest A s vaddr size ↔ ∀ v, A.Covers v → ¬(vaddr ≤ v ∧ v < vaddr + size) →
      A.translate (arm64MmuUnmap A s vaddr size).1 v = A.translate s v := by
    unfold KeepsRest
    rw [hun]
    simp
  rw [hkeeps, hun]
  constructor
  · intro h v hcov hl hh k pte a hw v' hcov' hd
    by_contra hout
    have hnone := (hwalk _ hcov'.2).1
      ((hreached v' hcov').2 ⟨v, hcov, ⟨hl, hh⟩, .inr ⟨k, pte, a, hw, hd⟩⟩)
    obtain ⟨a', hw'⟩ := walk_block hw hd
    have hsame := hnone.symm.trans (h v' hcov' hout)
    rw [Aspace.translate, hw'] at hsame
    cases hsame
  · intro h v hcov hout
    refine (hwalk _ hcov.2).2 fun hr => ?_
    obtain ⟨v₁, hcov₁, ⟨hl, hh⟩, rfl | ⟨k, pte, a, hw, hd⟩⟩ := (hreached v hcov).1 hr
    · exact hout ⟨hl, hh⟩
    · exact hout (h v₁ hcov₁ hl hh k pte a hw v hcov hd)

end Proof

/-- **When unmapping keeps the rest.**  Over tables built from an empty top table by any
calls that fit their descriptors, `arm64_mmu_unmap` changes the translation of no address
outside its range exactly when it turns the range away, or no block and no page that is
mapped lies on both sides of an end of the range. -/
theorem unmap_keeps_rest_iff (s₀ s : Tables) (hs : A.Empty s₀) (as : List MmuAct)
    (hok : Along (fun s a => (mmuStep A s a).map Prod.fst) (fun _ a => Describable a) s₀ as)
    (hrun : run (fun s a => (mmuStep A s a).map Prod.fst) s₀ as = some s) (vaddr size : ℕ)
    (hv : vaddr < 2 ^ 64) :
    KeepsRest A s vaddr size ↔ A.OutOfSpace vaddr size ∨ CutsNothing A s vaddr size := by
  have hinv : A.Inv s := by
    refine run_inv_along (fun s a s' h hok hs => ?_) as s₀ s hs.inv hok hrun
    obtain ⟨⟨s₁, ret⟩, h₁, rfl⟩ := Option.map_eq_some_iff.1 hs
    exact h.call hok h₁
  by_cases hin : A.OutOfSpace vaddr size
  · have hun : arm64MmuUnmap A s vaddr size = (s, .errInvalidArgs) := if_pos hin
    exact ⟨fun _ => .inl hin, fun _ => .inr ⟨by rw [hun]; simp, by rw [hun]⟩⟩
  · rw [hinv.keepsRest_iff hv hin]
    exact ⟨.inr, fun h => h.resolve_left hin⟩

/-- A block of 2 MB at 16 MB below the top of the space. -/
def blockMap : List MmuAct := [.map (2 ^ 64 - 2 ^ 24) 0x40000000 0x200000 0x708 []]

/-- The block is unmapped as a whole: its addresses share one descriptor, so nothing is cut. -/
theorem unmap_keeps_rest_iff_block :
    ∃ s, run (fun s a => (mmuStep smallKernel s a).map Prod.fst) smallTables blockMap = some s ∧
      KeepsRest smallKernel s (2 ^ 64 - 2 ^ 24) 0x200000 := by
  have hdef : (run (fun s a => (mmuStep smallKernel s a).map Prod.fst) smallTables
      blockMap).map (fun s => smallKernel.translate s (2 ^ 64 - 2 ^ 24)) =
      some (.leaf 21 0x40000709 0x40000000) := by decide +kernel
  obtain ⟨s, hs, hfirst⟩ := Option.map_eq_some_iff.1 hdef
  have hbase : smallKernel.vaddrBase = 2 ^ 64 - 2 ^ 25 := rfl
  refine ⟨s, hs, (unmap_keeps_rest_iff smallKernel smallTables s ⟨rfl, fun _ => rfl⟩ blockMap
    ⟨⟨by decide, by decide, by decide⟩, fun _ _ => trivial⟩ hs _ _ (by decide)).2
      (.inr fun v hcov hl hh k pte a hw v' hcov' hd => ?_)⟩
  have hdiv : (v - smallKernel.vaddrBase) / 2 ^ 21 =
      (2 ^ 64 - 2 ^ 24 - smallKernel.vaddrBase) / 2 ^ 21 := by
    rw [hbase]
    omega
  obtain ⟨a', hw'⟩ := walk_block hfirst hdiv
  obtain rfl : k = 21 := (Walk.leaf.inj (hw.symm.trans hw')).1
  have hge := hcov'.1
  rw [hbase] at hge hd
  omega

/-- **The rest of the block goes too.**  Its first page is unmapped, the call succeeds, and
the second page is not translated any more. -/
theorem unmap_first_page :
    ∃ s, run (fun s a => (mmuStep smallKernel s a).map Prod.fst) smallTables blockMap = some s ∧
      ¬KeepsRest smallKernel s (2 ^ 64 - 2 ^ 24) 0x1000 := by
  have hdef : (run (fun s a => (mmuStep smallKernel s a).map Prod.fst) smallTables
      blockMap).map (fun s => ((arm64MmuUnmap smallKernel s (2 ^ 64 - 2 ^ 24) 0x1000).2,
        smallKernel.translate (arm64MmuUnmap smallKernel s (2 ^ 64 - 2 ^ 24) 0x1000).1
          (2 ^ 64 - 2 ^ 24 + 0x1000),
        smallKernel.translate s (2 ^ 64 - 2 ^ 24 + 0x1000))) =
      some (.ok, .notFound, .leaf 21 0x40000709 0x40001000) := by
    decide +kernel
  obtain ⟨s, hs, hres⟩ := Option.map_eq_some_iff.1 hdef
  obtain ⟨hret, hafter, hbefore⟩ : _ ∧ _ ∧ _ := by simpa only [Prod.mk.injEq] using hres
  refine ⟨s, hs, ?_⟩
  rintro (⟨-, h⟩ | ⟨h, -⟩)
  · have := h (2 ^ 64 - 2 ^ 24 + 0x1000) ⟨by decide, by decide⟩ (by decide)
    rw [hafter, hbefore] at this
    cases this
  · exact h hret

end Arm64
end LittleKernel
