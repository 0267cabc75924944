/-
# `cmpct_memalign` and `cmpct_realloc`

The two calls of `lib/heap/cmpctmalloc/cmpctmalloc.c` that are made of others.
`cmpct_memalign` allocates more than it needs, cuts the block where the aligned
payload starts and frees the front.  `cmpct_realloc` allocates, copies and frees.
-/

import Mathlib.Algebra.Order.Group.Nat
import Mathlib.Data.Nat.Bitwise
import LittleKernel.Cmpctmalloc.Calls

namespace LittleKernel
namespace Cmpct

open Word

variable {R : List Region} {s s' : Heap}

/-- A block that was not in use is not live. -/
theorem Handed.not_live (hinv : Inv R s) {R' : List Region} {a z : ℕ} (h : Handed R s R' s' a z) :
    a + 16 ∉ s.live := by
  intro hp
  obtain ⟨f, hf, he⟩ := hinv.live.2 _ hp
  obtain rfl : a = f.1 := by omega
  exact h.new f.2 hf

section Memalign

/-- A block in use is cut in two. -/
theorem Inv.cutUsed {h : Hole} {z k : ℕ} (hinv : Inv (h.fill [⟨z, false⟩]) s)
    (hk : 32 ≤ k) (hk8 : k % 8 = 0) (hkz : k + 24 ≤ z) (hlive : h.addr + 16 ∉ s.live)
    (hs : s' = fixLeftPointer (h.addr + z) (h.addr + k)
      ((createAllocationHeader (h.addr + k) 0 (z - k) h.addr s).store (h.addr + 8) k)) :
    Inv (h.fill [⟨k, false⟩, ⟨z - k, false⟩]) s' := by
  have hp := hinv.placed
  have ha8 := hp.addr_mod
  obtain ⟨hz8, -, -⟩ := hp.areas ⟨z, false⟩ (by simp)
  simp only at hz8
  have hc : Core ([] ++ ⟨h.addr, z, h.left, z⟩ :: follow h.addr (h.addr + z) h.post ::
      h.others (h.addr + z)) (h.otherAreas true (h.addr + z)) s := by
    simpa [picks, Area.node] using hinv.core_one
  have hF : h.addr ∉ (h.otherAreas true (h.addr + z)).map Prod.fst := by
    have := hinv.used_not_free (a := h.addr) (z := z) (by simp [Hole.mem_fill, picks])
    simpa [((h.areas_fill true [⟨z, false⟩]).map Prod.fst).mem_iff, picks] using this
  have h₁ := hc.split hF (show 16 ≤ k by omega) (by simp only; omega)
  have h₂ := h₁.allocationHeader (A := [_]) (show h.addr + k + 0 = _ from rfl)
    (z - k) h.addr
  rw [untag_of_even (by omega)] at h₂
  have h₃ := Core.setSize (A := []) h₂ k
  have h₄ := h₃.fixLeft (A := [_, _]) (by omega) (show (h.addr + k) % 2 = 0 by omega)
  have hkz' : k + (z - k) = z := by omega
  refine hinv.refill (by simp [hkz']) ?_ ?_ ?_ (by rw [hs]; rfl) fun f hf hf' => ?_
  · simp only [List.mem_cons, List.not_mem_nil, or_false, forall_eq_or_imp, forall_eq, Area.Ok,
      Bool.false_eq_true, false_imp_iff, and_true]
    omega
  · exact hinv.region_ok.alternating.refill (by simp [Alternating]) (by simp) (by simp) (by simp)
  · rw [hs]
    simpa [front, lastHeader, picks, Area.node] using h₄
  · obtain rfl : f = (h.addr, z) := by simpa [picks] using hf
    exact absurd hf' hlive

/-- The arguments of `cmpct_memalign` that it is made for: the alignment is a power of
two, unless `cmpct_alloc` does, and the sum of the sizes fits a `size_t`. -/
def AlignedRequest (size alignment : ℕ) : Prop :=
  alignment < 8 ∨ alignment.isPowerOfTwo ∧ size + alignment + 2 ^ 13 ≤ 2 ^ 64

instance (size alignment : ℕ) : Decidable (AlignedRequest size alignment) :=
  inferInstanceAs (Decidable (_ ∨ _))

/-- `large_alloc` asks for the size and two sentinels at least. -/
theorem le_growSize {size : ℕ} (h : size + 2 ^ 12 + 2 ^ 6 ≤ 2 ^ 64) :
    size + 32 ≤ growSize (roundup size 8) := by
  have h₁ : u64 (size + (8 - 1)) = size + 7 := u64_of_lt (by omega)
  have h₂ : u64 ((size + 7) / 8 * 8 + 2 * 16) = (size + 7) / 8 * 8 + 32 := u64_of_lt (by omega)
  have h₃ : u64 ((size + 7) / 8 * 8 + 32 + (4096 - 1)) = (size + 7) / 8 * 8 + 32 + 4095 :=
    u64_of_lt (by omega)
  rw [growSize, roundup, roundup, h₁, h₂, h₃]
  omega

/-- A power of two that is large enough is a multiple of a smaller one. -/
theorem two_pow_mod_of_le {e j : ℕ} (h : 2 ^ j ≤ 2 ^ e) : 2 ^ e % 2 ^ j = 0 :=
  Nat.mod_eq_zero_of_dvd (pow_dvd_pow 2 ((Nat.pow_le_pow_iff_right (by decide)).1 h))

/-- Where `cmpct_memalign` cuts the block at `a` of size `z`. -/
theorem cut_of_aligned {size alignment a z i : ℕ} (h8 : 8 ≤ alignment)
    (hreq : AlignedRequest size alignment) (ha : a % 8 = 0) (htop : a + z + 16 < 2 ^ 64)
    (hz : AllocSize (size + alignment + 32 + 16) a z)
    (hi : i = u64 (a + 16 + 32 + 16 + (alignment - 1))) :
    ∃ k, i - (i &&& (alignment - 1)) = a + k + 16 ∧ 32 ≤ k ∧ k % 8 = 0 ∧ k + 24 ≤ z ∧
      a + k + 16 = a + 63 + alignment - (a + 63 + alignment) % alignment := by
  obtain hlt | ⟨⟨e, he⟩, hsum⟩ := hreq
  · omega
  have hm8 : alignment % 8 = 0 := he ▸ two_pow_mod_of_le (show 2 ^ 3 ≤ 2 ^ e from he ▸ h8)
  have hzle : size + alignment + 48 ≤ z := by
    rcases hz with ⟨-, hz⟩ | ⟨-, hz, -, -⟩
    · omega
    · have := le_growSize (show size + alignment + 32 + 16 + 2 ^ 12 + 2 ^ 6 ≤ 2 ^ 64 by omega)
      omega
  have hi : i = a + 63 + alignment := by
    rw [hi, u64_of_lt (by omega)]
    omega
  have hand : i &&& (alignment - 1) = i % alignment := by
    rw [he, Nat.and_two_pow_sub_one_eq_mod]
  -- the payload is the last multiple of the alignment up to `i`
  obtain ⟨P, hP⟩ : ∃ P, i - i % alignment = P := ⟨_, rfl⟩
  have hPmod : P % alignment = 0 := by
    rw [← hP]
    exact Nat.sub_mod_eq_zero_of_mod_eq (Nat.mod_mod _ _).symm
  have hlt := Nat.mod_lt i (show alignment > 0 by omega)
  have hP8 : P % 8 = 0 :=
    Nat.mod_eq_zero_of_dvd ((Nat.dvd_of_mod_eq_zero hm8).trans (Nat.dvd_of_mod_eq_zero hPmod))
  rw [hand, hP]
  refine ⟨P - a - 16, by omega, by omega, by omega, ?_, by rw [← hi, hP]; omega⟩
  rcases hz with ⟨-, hz⟩ | ⟨hlarge, hz, ha', -⟩
  · omega
  · by_cases hsize : 16 ≤ size
    · omega
    · -- a small block with a large alignment: what is left is made of whole pages
      rw [u64_of_lt (by omega)] at hlarge
      have hm : alignment % 4096 = 0 :=
        he ▸ two_pow_mod_of_le (show 2 ^ 12 ≤ 2 ^ e by rw [← he]; omega)
      have hP' : P % 4096 = 0 :=
        Nat.mod_eq_zero_of_dvd ((Nat.dvd_of_mod_eq_zero hm).trans (Nat.dvd_of_mod_eq_zero hPmod))
      have hmod := growSize_mod (roundup (size + alignment + 32 + 16) 8)
      omega

/-- The block `(a, z)` that `cmpct_memalign` hands out: from `cmpct_alloc` when the alignment
is small, else the end of a block `(b, y)` of the padded size, from the last multiple of the
alignment on that leaves room for the front. -/
def MemalignSize (size alignment a z : ℕ) : Prop :=
  (alignment < 8 ∧ AllocSize size a z) ∨
    (8 ≤ alignment ∧ ∃ b y, AllocSize (size + alignment + 32 + 16) b y ∧ b % 8 = 0 ∧
      b + y = a + z ∧ b + y < 2 ^ 64 ∧
      a + 16 = b + 63 + alignment - (b + 63 + alignment) % alignment)

/-- **`cmpct_memalign`.** -/
theorem cmpctMemalign_handed {c : Config} (hinv : Inv R s) {size alignment p : ℕ}
    (hsize : size < 2 ^ 64) (hreq : AlignedRequest size alignment)
    (hs : cmpctMemalign c size alignment s = some (p, s')) :
    (p = 0 ∧ alignment < 8 ∧ ∃ R', Inv R' s' ∧ s'.live = s.live) ∨
      ∃ R' a z, p = a + 16 ∧ Handed R s R' s' a z ∧ MemalignSize size alignment a z := by
  unfold cmpctMemalign at hs
  split_ifs at hs with h8
  · rcases cmpctAlloc_handed hinv hsize hs with ⟨rfl, R', hinv', hlive, -⟩ | ⟨R', a, z, rfl, hh, hz⟩
    · exact .inl ⟨rfl, h8, R', hinv', hlive⟩
    · exact .inr ⟨R', a, z, rfl, hh, .inl ⟨h8, hz⟩⟩
  · have hsum : size + alignment + 2 ^ 13 ≤ 2 ^ 64 := by
      rcases hreq with hlt | ⟨-, hsum⟩
      · omega
      · exact hsum
    simp only [Option.bind_eq_bind, Option.bind_eq_some_iff] at hs
    obtain ⟨⟨unaligned, s₁⟩, hs₁, hs⟩ := hs
    rw [u64_of_lt (by omega)] at hs₁
    obtain ⟨rfl, -⟩ | ⟨R₁, a, z, rfl, hh, hz⟩ := cmpctAlloc_handed hinv (by omega) hs₁
    · simp at hs
    have hne : a + 16 ≠ 0 := by omega
    obtain ⟨-, -, hz8, ha8, htop⟩ := hh.inv.size_lt hh.block
    simp only at hz8 ha8 htop
    obtain ⟨k, hk, hk32, hk8, hkz, hcutAt⟩ := cut_of_aligned (by omega) hreq ha8 htop hz rfl
    simp only [if_neg hne, Option.bind_eq_some_iff] at hs
    obtain ⟨s₂, hs₂, hs⟩ := hs
    obtain rfl := Heap.lock_eq_some hs₂
    rw [hk] at hs
    have hneq : a + 16 ≠ a + k + 16 := by omega
    have hlive : a + 16 ∉ s₁.live := hh.live ▸ hh.not_live hinv
    obtain ⟨h, rfl, rfl⟩ := Hole.exists_of_mem_areasOf hh.block
    have hinv₁ : Inv (h.fill [⟨z, false⟩]) s₁ := hh.inv
    have hmem : s₁.mem (h.addr + 8) = z := (hinv₁.core_one.header _ List.mem_cons_self).2
    have hmem' : (createAllocationHeader (h.addr + k) 0 (z - k) h.addr
        { s₁ with locked := true }).mem (h.addr + 8) = z := by
      rw [createAllocationHeader, Heap.store_of_ne (by omega), Heap.store_of_ne (by omega)]
      exact hmem
    have hcut := (hinv₁.lock true s₁.answers).cutUsed hk32 hk8 hkz hlive rfl
    have hover : sub64 (h.addr + k + 16) (h.addr + 16) = k := by
      rw [sub64_of_le (by omega) (by omega)]
      omega
    simp only [if_pos hneq, Option.bind_eq_some_iff, Option.some.injEq, Prod.mk.injEq,
      Nat.add_sub_cancel, hmem, hover, rightHeader, sub64_of_le (show z < 2 ^ 64 by omega)
        (show k ≤ z by omega), hmem'] at hs
    obtain ⟨s₃, hs₃, rfl, rfl⟩ := hs
    have hroom : RoomToFree (h.addr + 16) (fixLeftPointer (h.addr + z) (h.addr + k)
        ((createAllocationHeader (h.addr + k) 0 (z - k) h.addr
          { s₁ with locked := true }).store (h.addr + 8) k)).unlock := by
      have := (hcut.core_fill.header (Area.node h.left h.addr ⟨k, false⟩) (by simp [front])).2
      exact .inl (le_of_le_of_eq hk32 this.symm)
    obtain ⟨R', hinv', hlive', hkeep⟩ := cmpctFree_freed (hcut.lock false s₁.answers)
      (a := h.addr) (z := k) (by simp [Hole.mem_fill, picks]) hlive hroom hs₃
    have hkz' : k + (z - k) = z := by omega
    refine .inr ⟨R', h.addr + k, z - k, rfl, ⟨hinv', hlive'.trans hh.live, ?_, ?_, ?_⟩,
      .inr ⟨by omega, h.addr, z, hz, ha8, by omega, by omega, hcutAt⟩⟩
    · refine hkeep _ (by simp [Hole.mem_fill, picks]) fun e => ?_
      have := (Prod.mk.inj e).1
      omega
    · intro z' hz'
      have hz' : h.addr + k ≤ h.addr ∨ h.addr + z ≤ h.addr + k :=
        hinv₁.not_inside hh.block (hh.keeps _ hz')
      omega
    · intro f hf
      refine hkeep f ?_ fun e => hh.new k (e ▸ hf)
      rcases Hole.mem_fill.1 (hh.keeps f hf) with hf' | hf'
      · obtain rfl : f = (h.addr, z) := by simpa [picks] using hf'
        exact absurd hf (hh.new z)
      · exact Hole.mem_fill.2 (.inr (by simpa [hkz'] using hf'))

end Memalign

section Realloc

/-- The payload of a block in use is its caller's. -/
theorem Inv.payload (hinv : Inv R s) {a z : ℕ} (hb : (a, z) ∈ areasOf false R) {mem : ℕ → ℕ}
    (hm : ∀ c, c < a + 16 ∨ a + z ≤ c → mem c = s.mem c) : Inv R { s with mem := mem } := by
  obtain ⟨n, hn, hna, hns, -⟩ := hinv.node_of_area hb
  simp only at hna hns
  refine ⟨hinv.ok, hinv.apart, ?_, hinv.held, hinv.size, hinv.live⟩
  refine hinv.core.interior hn (hna ▸ hinv.used_not_free hb) (fun c hc => hm c ?_) rfl rfl rfl
  rwa [hna, hns] at hc

/-- `memcpy` writes the words that its bytes are in. -/
theorem memcpy_of_outside {dst src n c : ℕ} (hc : c < dst ∨ dst + (n + 7) / 8 * 8 ≤ c) :
    (memcpy dst src n s).mem c = s.mem c := by
  simp only [memcpy]
  rw [if_neg]
  omega

theorem memcpy_zero (dst src : ℕ) (s : Heap) : memcpy dst src 0 s = s := by
  have : (memcpy dst src 0 s).mem = s.mem := funext fun c => memcpy_of_outside (by omega)
  calc memcpy dst src 0 s = { s with mem := (memcpy dst src 0 s).mem } := rfl
    _ = s := by rw [this]

/-- What `cmpct_realloc` needs of the block and of the new size: the block can be freed,
and what is copied fits the new block.  `large_alloc` does not count the header of the
block it hands out, so above 4 MB this is not a matter of course. -/
def RoomToCopy (payload size : ℕ) (s : Heap) : Prop :=
  payload = 0 ∨ 32 ≤ s.mem (payload - 16 + 8) ∧ (size + 16 ≤ 2 ^ 22 ∨
    (min size (s.mem (payload - 16 + 8) - 16) + 7) / 8 * 8 + 48 ≤ growSize (roundup size 8))

instance (payload size : ℕ) (s : Heap) : Decidable (RoomToCopy payload size s) :=
  inferInstanceAs (Decidable (_ ∨ _))

theorem RoomToCopy.fits {a z a' z' size : ℕ} (h : RoomToCopy (a + 16) size s)
    (hz : s.mem (a + 8) = z) (hz' : AllocSize size a' z') (hsize : size < 2 ^ 64) :
    (min size (z - 16) + 7) / 8 * 8 + 16 ≤ z' := by
  obtain h0 | ⟨-, h⟩ := h
  · omega
  rw [Nat.add_sub_cancel, hz] at h
  rcases hz' with ⟨-, hz'⟩ | ⟨hlarge, rfl, -, -⟩
  · omega
  · rcases h with h | h
    · rw [u64_of_lt (by omega)] at hlarge
      omega
    · omega

/-- The size in the header of a block in use. -/
theorem Inv.mem_size (hinv : Inv R s) {a z : ℕ} (hb : (a, z) ∈ areasOf false R) :
    s.mem (a + 8) = z := by
  obtain ⟨n, hn, rfl, -, rfl, -⟩ := hinv.node_of_area hb
  exact (hinv.core.header n hn).2

/-- What `cmpct_realloc` does with a block in use: there is nothing to keep and the block is
freed, or it is copied to a new block and freed. -/
theorem cmpctRealloc_cases {c : Config} (hinv : Inv R s) {a z size p : ℕ} (hsize : size < 2 ^ 64)
    (hb : (a, z) ∈ areasOf false R) (hroom : RoomToCopy (a + 16) size s)
    (hs : cmpctRealloc c (a + 16) size s = some (p, s')) :
    (p = 0 ∧ size = 0 ∧ ∃ R₁ s₁, Inv R₁ s₁ ∧ s₁.live = s.live ∧
      areasOf false R₁ = areasOf false R ∧ cmpctFree (a + 16) s₁ = some s') ∨
    ∃ R₁ s₁ a' z', p = a' + 16 ∧ cmpctAlloc c size s = some (a' + 16, s₁) ∧
      Handed R s R₁ s₁ a' z' ∧ AllocSize size a' z' ∧
      Inv R₁ (memcpy (a' + 16) (a + 16) (min size (z - 16)) s₁) ∧
      cmpctFree (a + 16) (memcpy (a' + 16) (a + 16) (min size (z - 16)) s₁) = some s' := by
  have hne : a + 16 ≠ 0 := by omega
  obtain ⟨hz24, -, -, -, htop⟩ := hinv.size_lt hb
  simp only at hz24 htop
  simp only [cmpctRealloc, if_neg hne, Nat.add_sub_cancel, hinv.mem_size hb, Option.bind_eq_bind,
    Option.bind_eq_some_iff, sub64_of_le (show z < 2 ^ 64 by omega) (show 16 ≤ z by omega)] at hs
  obtain ⟨⟨q, s₁⟩, hs₁, hs⟩ := hs
  split_ifs at hs with hnull
  simp only [Option.bind_eq_some_iff, Option.some.injEq, Prod.mk.injEq] at hs
  obtain ⟨s₂, hs₂, rfl, rfl⟩ := hs
  rcases cmpctAlloc_handed hinv hsize hs₁ with
    ⟨rfl, R₁, hinv₁, hlive₁, hused⟩ | ⟨R₁, a', z', rfl, hh, hz'⟩
  · -- nothing is copied, as `realloc(p, 0)` has nothing to keep
    have hmin : min size (z - 16) = 0 := by
      by_contra hmin
      exact hnull ⟨rfl, hmin⟩
    rw [hmin, memcpy_zero] at hs₂
    exact .inl ⟨rfl, by omega, R₁, s₁, hinv₁, hlive₁, hused, hs₂⟩
  · have hfits := hroom.fits (hinv.mem_size hb) hz' hsize
    refine .inr ⟨R₁, s₁, a', z', rfl, hs₁, hh, hz', ?_, hs₂⟩
    refine hh.inv.payload hh.block fun c hc => memcpy_of_outside ?_
    omega

theorem RoomToCopy.size_le {a z size : ℕ} (h : RoomToCopy (a + 16) size s)
    (hz : s.mem (a + 8) = z) : 32 ≤ z := by
  obtain h0 | ⟨h32, -⟩ := h
  · omega
  · rwa [Nat.add_sub_cancel, hz] at h32

/-- **`cmpct_realloc`** of a block in use that is no longer counted as live. -/
theorem cmpctRealloc_handed {c : Config} (hinv : Inv R s) {a z size p : ℕ} (hsize : size < 2 ^ 64)
    (hb : (a, z) ∈ areasOf false R) (hlive : a + 16 ∉ s.live) (hroom : RoomToCopy (a + 16) size s)
    (hs : cmpctRealloc c (a + 16) size s = some (p, s')) :
    ∃ R', Inv R' s' ∧ s'.live = s.live ∧
      (∀ f ∈ areasOf false R, f ≠ (a, z) → f ∈ areasOf false R') ∧ (p = 0 ∧ size = 0 ∨
        p ∉ s.live ∧ ∃ f ∈ areasOf false R', p = f.1 + 16 ∧ AllocSize size f.1 f.2) := by
  have hz32 := hroom.size_le (hinv.mem_size hb)
  -- the block can be freed, and freeing it keeps all others
  have hfree : ∀ {R₁ s₁}, Inv R₁ s₁ → (a, z) ∈ areasOf false R₁ → s₁.live = s.live →
      cmpctFree (a + 16) s₁ = some s' → Freed R₁ s₁ a z s' := fun hinv₁ hb₁ hl₁ hs₁ =>
    cmpctFree_freed hinv₁ hb₁ (hl₁ ▸ hlive)
      (.inl (by rw [Nat.add_sub_cancel, hinv₁.mem_size hb₁]; exact hz32)) hs₁
  rcases cmpctRealloc_cases hinv hsize hb hroom hs with
    ⟨rfl, h0, R₁, s₁, hinv₁, hlive₁, hused, hs₁⟩ | ⟨R₁, s₁, a', z', rfl, -, hh, hz', hinv₂, hs₂⟩
  · obtain ⟨R', hinv', hlive', hkeep⟩ := hfree hinv₁ (hused ▸ hb) hlive₁ hs₁
    exact ⟨R', hinv', hlive'.trans hlive₁, fun f hf hne => hkeep f (hused ▸ hf) hne,
      .inl ⟨rfl, h0⟩⟩
  · obtain ⟨R', hinv', hlive', hkeep⟩ := hfree hinv₂ (hh.keeps _ hb) hh.live hs₂
    refine ⟨R', hinv', hlive'.trans hh.live, fun f hf hne => hkeep f (hh.keeps f hf) hne,
      .inr ⟨hh.not_live hinv, (a', z'), ?_, rfl, hz'⟩⟩
    exact hkeep _ hh.block fun e => hh.new z ((Prod.mk.inj e).1 ▸ hb)

end Realloc

end Cmpct
end LittleKernel
