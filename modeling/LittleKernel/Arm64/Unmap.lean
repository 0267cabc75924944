/-
# Unmapping

`arm64_mmu_unmap_pt` makes the addresses of its range untranslated, and with them
those that share a block or a page with one of them: `unmapPt_swept`, by induction on
the levels, with the loop over the entries of a table inside.  If the range cuts no
block and no page that is mapped, these are the addresses of the range:
`unmapPt_cleared`.
-/

import LittleKernel.Arm64.Tables

namespace LittleKernel
namespace Arm64

open Word

/-! ### Ranges that cut no mapping -/

/-- Every block or page that is mapped and meets the range lies in it. -/
def Whole (ps : ℕ) (m : ℕ → ℕ → ℕ) (n p lo hi : ℕ) : Prop :=
  ∀ o, lo ≤ o → o < hi → ∀ k v a, walk ps m n p o = .leaf k v a →
    ∀ o', o' / 2 ^ k = o / 2 ^ k → lo ≤ o' ∧ o' < hi

section Whole

variable {ps : ℕ} {m m' : ℕ → ℕ → ℕ} {n p lo hi c : ℕ}

theorem span_eq_mul {k : ℕ} (hk : k ≤ indexShift ps n) :
    span ps n = 2 ^ k * 2 ^ (indexShift ps n - k) := by
  rw [span, ← pow_add]
  congr 1
  omega

/-- Addresses of one leaf lie in the span of one entry. -/
theorem div_span_eq {o o' k : ℕ} (hk : k ≤ indexShift ps n) (h : o' / 2 ^ k = o / 2 ^ k) :
    o' / span ps n = o / span ps n := by
  rw [span_eq_mul hk, ← Nat.div_div_eq_div_mul, ← Nat.div_div_eq_div_mul, h]

/-- They are addresses of one leaf in the table below, too. -/
theorem mod_span_div {o o' k : ℕ} (hk : k ≤ indexShift ps n) (h : o' / 2 ^ k = o / 2 ^ k) :
    o' % span ps n / 2 ^ k = o % span ps n / 2 ^ k := by
  rw [span_eq_mul hk, Nat.mod_mul_right_div_self, Nat.mod_mul_right_div_self, h]

theorem Whole.congr (h : Whole ps m n p lo hi)
    (hw : ∀ o, lo ≤ o → o < hi → walk ps m' n p o = walk ps m n p o) :
    Whole ps m' n p lo hi := by
  intro o hlo hhi k v a ho
  rw [hw o hlo hhi] at ho
  exact h o hlo hhi k v a ho

theorem Whole.append (h : Whole ps m n p lo c) (h' : Whole ps m n p c hi) (hlo : lo ≤ c)
    (hhi : c ≤ hi) : Whole ps m n p lo hi := by
  intro o ho ho' k v a hw o' hd
  rcases Nat.lt_or_ge o c with hoc | hoc
  · have := h o ho hoc k v a hw o' hd
    omega
  · have := h' o hoc ho' k v a hw o' hd
    omega

theorem entry_div {B i o : ℕ} (ho : o < B) : (i * B + o) / B = i ∧ (i * B + o) % B = o := by
  have hB : 0 < B := by omega
  constructor
  · rw [mul_comm, Nat.mul_add_div hB, Nat.div_eq_of_lt ho, Nat.add_zero]
  · rw [mul_comm, Nat.mul_add_mod, Nat.mod_eq_of_lt ho]

end Whole

/-! ### Clearing -/

/-- A step that makes the addresses from `lo` to `hi` untranslated and leaves the others as
they were. -/
def Cleared (ps : ℕ) (s s' : Tables) (n K p : ℕ) (S : Set ℕ) (lo hi : ℕ) : Prop :=
  ∃ S', Owns ps s' n K p S' ∧ Frame s s' S S' ∧ ∀ o < K * span ps n,
    walk ps s'.pte n p o = if lo ≤ o ∧ o < hi then .notFound else walk ps s.pte n p o

/-- The address `o` is one of the range, or shares a block or a page with one. -/
def Reached (ps : ℕ) (m : ℕ → ℕ → ℕ) (n p lo hi o : ℕ) : Prop :=
  ∃ o₁, lo ≤ o₁ ∧ o₁ < hi ∧
    (o₁ = o ∨ ∃ k v a, walk ps m n p o₁ = .leaf k v a ∧ o / 2 ^ k = o₁ / 2 ^ k)

/-- A step that makes what the range reaches untranslated and leaves the rest as it was. -/
def Swept (ps : ℕ) (s s' : Tables) (n K p : ℕ) (S : Set ℕ) (lo hi : ℕ) : Prop :=
  ∃ S', Owns ps s' n K p S' ∧ Frame s s' S S' ∧ ∀ o < K * span ps n,
    (Reached ps s.pte n p lo hi o → walk ps s'.pte n p o = .notFound) ∧
      (¬Reached ps s.pte n p lo hi o → walk ps s'.pte n p o = walk ps s.pte n p o)

section Clear

variable {ps : ℕ} {s s₁ s' : Tables} {n K p i : ℕ} {S : Set ℕ}

theorem swept_refl (h : Owns ps s n K p S) (lo : ℕ) : Swept ps s s n K p S lo lo := by
  refine ⟨S, h, .refl s S, fun o _ => ⟨fun ⟨o₁, hl, hh, _⟩ => ?_, fun _ => rfl⟩⟩
  omega

theorem reached_append {m : ℕ → ℕ → ℕ} {lo c hi o : ℕ} (hlo : lo ≤ c) (hhi : c ≤ hi) :
    Reached ps m n p lo hi o ↔ Reached ps m n p lo c o ∨ Reached ps m n p c hi o := by
  constructor
  · rintro ⟨o₁, hl, hh, heq⟩
    rcases Nat.lt_or_ge o₁ c with hc | hc
    · exact .inl ⟨o₁, hl, hc, heq⟩
    · exact .inr ⟨o₁, hc, hh, heq⟩
  · rintro (⟨o₁, hl, hh, heq⟩ | ⟨o₁, hl, hh, heq⟩)
    · exact ⟨o₁, hl, hh.trans_le hhi, heq⟩
    · exact ⟨o₁, hlo.trans hl, hh, heq⟩

/-- The entry is cleared, and perhaps the table below it freed. -/
theorem Owns.clearEntry (h : Owns ps s n K p S) (hi : i < K)
    (hpte : s'.pte = (s.setPte p i 0).pte)
    (hlive : s'.live = s.live ∨ (∃ k, n = k + 1) ∧ s.pte p i &&& 3 = 3 ∧
      s'.live = Function.update s.live (s.pte p i &&& pteOutputAddrMask) false) :
    ∃ S', Owns ps s' n K p S' ∧ Frame s s' S S' ∧ ∀ o < K * span ps n,
      walk ps s'.pte n p o = if o / span ps n = i then .notFound else walk ps s.pte n p o := by
  have hp : s.live p = true := h.live p h.isTable.self_mem
  obtain ⟨T, hslot, -, hpT, hnext⟩ := h.entry hi
  -- a table that is freed is below the entry
  have hkeep : ∀ a, a ∉ T → s.live a = true → s'.live a = true := by
    intro a haT hal
    rcases hlive with hl | ⟨⟨k, rfl⟩, hv, hl⟩
    · rw [hl, hal]
    · have hmem : s.pte p i &&& pteOutputAddrMask ∈ T := by
        rcases hslot with ⟨-, h0 | h1⟩ | ⟨-, hT⟩
        · simp [h0] at hv
        · omega
        · exact @IsTable.self_mem ps _ k _ _ _ hT
      have hne : a ≠ s.pte p i &&& pteOutputAddrMask := fun he => haT (he ▸ hmem)
      rw [hl, Function.update_of_ne hne, hal]
  have hz : s'.pte p i = 0 := by simp [hpte, Tables.setPte]
  obtain ⟨S', hown, hframe, hwalk⟩ := hnext s' ∅ (fun j hj => by simp [hpte, Tables.setPte, hj])
    (hkeep p hpT hp)
    (fun a hap haT hal => ⟨by simp [hpte, Tables.setPte, hap], hkeep a haT hal⟩) (by simp)
    (hz ▸ Slot.zero ps s'.pte n)
  refine ⟨S', hown, hframe, fun o ho => ?_⟩
  split
  · rename_i hoi
    exact walk_clear (hoi ▸ hz)
  · rename_i hoi
    exact hwalk o ho hoi

/-- What is done to the table below an entry, seen from the table above. -/
theorem Owns.belowEntry (h : Owns ps s (n + 1) K p S) (hi : i < K) (hv : s.pte p i &&& 3 = 3) :
    ∃ T, Owns ps s n (2 ^ (ps - 3)) (s.pte p i &&& pteOutputAddrMask) T ∧ ∀ s' T',
      Owns ps s' n (2 ^ (ps - 3)) (s.pte p i &&& pteOutputAddrMask) T' → Frame s s' T T' →
      ∃ S', Owns ps s' (n + 1) K p S' ∧ Frame s s' S S' ∧ s'.pte p i = s.pte p i ∧
        ∀ o < K * span ps (n + 1), walk ps s'.pte (n + 1) p o =
          if o / span ps (n + 1) = i then
            walk ps s'.pte n (s.pte p i &&& pteOutputAddrMask) (o % span ps (n + 1))
          else walk ps s.pte (n + 1) p o := by
  have hp : s.live p = true := h.live p h.isTable.self_mem
  obtain ⟨T, hslot, hTS, hpT, hnext⟩ := h.entry hi
  rcases hslot with ⟨-, h0 | h1⟩ | ⟨-, hT⟩
  · simp [h0] at hv
  · omega
  refine ⟨T, ⟨hT, fun a ha => h.live a (hTS ha)⟩, fun s' T' hown hframe => ?_⟩
  obtain ⟨hpte, hplive⟩ := hframe.keep p hpT hp
  obtain ⟨S', hown', hframe', hwalk⟩ := hnext s' T' (fun j _ => by rw [hpte]) hplive
    (fun a _ haT hal => hframe.keep a haT hal) (fun a ha => ⟨hframe.new a ha, hown.live a ha⟩)
    (by rw [hpte]; exact .inr ⟨hv, hown.isTable⟩)
  refine ⟨S', hown', hframe', by rw [hpte], fun o ho => ?_⟩
  split
  · rename_i hoi
    rw [walk_eq, hoi, hpte, walkEntry_table hv]
  · rename_i hoi
    exact hwalk o ho hoi

/-- The position of an address in its entry. -/
theorem mem_entry {B o i lo hi : ℕ} (hB : 0 < B) (hhi : hi ≤ B) :
    i * B + lo ≤ o ∧ o < i * B + hi ↔ o / B = i ∧ lo ≤ o % B ∧ o % B < hi := by
  have hdm := Nat.div_add_mod o B
  have hlt := Nat.mod_lt o hB
  constructor
  · rintro ⟨hl, hh⟩
    have hi' : o / B = i := by
      refine Nat.div_eq_of_lt_le (by omega) ?_
      rw [Nat.succ_mul]
      omega
    rw [hi', mul_comm] at hdm
    exact ⟨hi', by omega, by omega⟩
  · rintro ⟨rfl, hl, hh⟩
    rw [mul_comm] at hdm
    omega

theorem mem_span {B o i : ℕ} (hB : 0 < B) : i * B ≤ o ∧ o < i * B + B ↔ o / B = i := by
  rw [← Nat.add_zero (i * B), Nat.add_assoc, Nat.zero_add, mem_entry hB le_rfl]
  exact ⟨fun h => h.1, fun h => ⟨h, Nat.zero_le _, Nat.mod_lt _ hB⟩⟩

/-- The addresses that one entry reaches are its own. -/
theorem Reached.div {m : ℕ → ℕ → ℕ} {lo hi o : ℕ} (hhi : hi ≤ span ps n)
    (h : Reached ps m n p (i * span ps n + lo) (i * span ps n + hi) o) : o / span ps n = i := by
  obtain ⟨o₁, hl, hh, heq⟩ := h
  have hi₁ := ((mem_entry (span_pos ps n) hhi).1 ⟨hl, hh⟩).1
  rcases heq with rfl | ⟨k, v, a, hw, hd⟩
  · exact hi₁
  · rw [div_span_eq (walk_leaf_shift hw) hd, hi₁]

/-- What a range below one entry reaches, seen from the table below. -/
theorem reached_below {m : ℕ → ℕ → ℕ} {v lo hi o : ℕ} (hv : m p i = v) (hv3 : v &&& 3 = 3)
    (hhi : hi ≤ span ps (n + 1)) :
    Reached ps m (n + 1) p (i * span ps (n + 1) + lo) (i * span ps (n + 1) + hi) o ↔
      o / span ps (n + 1) = i ∧
        Reached ps m n (v &&& pteOutputAddrMask) lo hi (o % span ps (n + 1)) := by
  have hB := span_pos ps (n + 1)
  have hwalk : ∀ o, o / span ps (n + 1) = i → walk ps m (n + 1) p o =
      walk ps m n (v &&& pteOutputAddrMask) (o % span ps (n + 1)) := fun o ho => by
    rw [walk_eq, ho, hv, walkEntry_table hv3]
  -- the descriptors of the table below are for less than the entry
  have hshift : ∀ {k o v' a}, walk ps m n (v &&& pteOutputAddrMask) o = .leaf k v' a →
      k ≤ indexShift ps (n + 1) := fun hw => (walk_leaf_shift hw).trans (by
    rw [indexShift_succ]
    omega)
  constructor
  · intro h
    have hi' := h.div hhi
    obtain ⟨o₁, hl, hh, heq⟩ := h
    obtain ⟨hi₁, hl', hh'⟩ := (mem_entry hB hhi).1 ⟨hl, hh⟩
    refine ⟨hi', o₁ % span ps (n + 1), hl', hh', ?_⟩
    rcases heq with rfl | ⟨k, v', a, hw, hd⟩
    · exact .inl rfl
    · rw [hwalk o₁ hi₁] at hw
      exact .inr ⟨k, v', a, hw, mod_span_div (hshift hw) hd⟩
  · rintro ⟨hi', o₁, hl, hh, heq⟩
    obtain ⟨hdiv, hmod⟩ := entry_div (i := i) (o₁.lt_of_lt_of_le hh hhi)
    refine ⟨i * span ps (n + 1) + o₁, by omega, by omega, ?_⟩
    rcases heq with rfl | ⟨k, v', a, hw, hd⟩
    · have := Nat.div_add_mod o (span ps (n + 1))
      rw [hi', mul_comm] at this
      exact .inl this
    · refine .inr ⟨k, v', a, by rw [hwalk _ hdiv, hmod, hw], ?_⟩
      have hk : 2 ^ k ∣ span ps (n + 1) := pow_dvd_pow 2 (hshift hw)
      obtain ⟨e, he⟩ := hk.mul_left i
      have ho : o = 2 ^ k * e + o % span ps (n + 1) := by
        have := Nat.div_add_mod o (span ps (n + 1))
        rw [hi', mul_comm, he] at this
        exact this.symm
      rw [ho, he, Nat.mul_add_div (Nat.two_pow_pos k), Nat.mul_add_div (Nat.two_pow_pos k), hd]

section Entry

variable {lo size : ℕ} (hi : i < K)

/-- In an empty entry there is nothing to clear. -/
theorem Owns.swept_empty (h : Owns ps s n K p S) (hle : lo + size ≤ span ps n)
    (hz : s.pte p i = 0) :
    Swept ps s s n K p S (i * span ps n + lo) (i * span ps n + (lo + size)) :=
  ⟨S, h, .refl s S, fun _ _ => ⟨fun hr => walk_clear (hr.div hle ▸ hz), fun _ => rfl⟩⟩

include hi

/-- A leaf in the entry goes as a whole. -/
theorem Owns.swept_leaf (h : Owns ps s n K p S) (hpos : 0 < size) (hle : lo + size ≤ span ps n)
    (hw : ∃ v, ∃ a : ℕ → ℕ, ∀ o, walkEntry ps s.pte n (s.pte p i) o = .leaf (indexShift ps n) v (a o)) :
    Swept ps s (s.setPte p i 0) n K p S (i * span ps n + lo) (i * span ps n + (lo + size)) := by
  have hfirst : (i * span ps n + lo) / span ps n = i :=
    (entry_div (i := i) (show lo < span ps n by omega)).1
  obtain ⟨v, a, hw⟩ := hw
  obtain ⟨S', hown, hframe, hwalk⟩ := h.clearEntry hi rfl (.inl rfl)
  refine ⟨S', hown, hframe, fun o ho => ⟨fun hr => ?_, fun hr => ?_⟩⟩
  · rw [hwalk o ho, if_pos (hr.div hle)]
  · rw [hwalk o ho, if_neg]
    intro hoi
    have hlo := (walk_eq ps s.pte n p (i * span ps n + lo)).trans (hfirst.symm ▸ hw _)
    exact hr ⟨i * span ps n + lo, le_rfl, by omega, .inr ⟨_, v, _, hlo, by
      rw [← span, hoi, hfirst]⟩⟩

/-- The table below the entry is swept, and with it what the range reaches. -/
theorem Owns.swept_below (h : Owns ps s (n + 1) K p S) (hle : lo + size ≤ span ps (n + 1))
    (hv : s.pte p i &&& 3 = 3)
    (hbelow : ∀ T, Owns ps s n (2 ^ (ps - 3)) (s.pte p i &&& pteOutputAddrMask) T →
      Swept ps s s₁ n (2 ^ (ps - 3)) (s.pte p i &&& pteOutputAddrMask) T lo (lo + size)) :
    s₁.pte p i = s.pte p i ∧ Swept ps s s₁ (n + 1) K p S (i * span ps (n + 1) + lo)
      (i * span ps (n + 1) + (lo + size)) := by
  obtain ⟨T, hownT, hup⟩ := h.belowEntry hi hv
  obtain ⟨T', hown', hframe', hwalk'⟩ := hbelow T hownT
  obtain ⟨S₁, hown₁, hframe₁, hpte₁, hwalk₁⟩ := hup _ T' hown' hframe'
  refine ⟨hpte₁, S₁, hown₁, hframe₁, fun o ho => ?_⟩
  rw [hwalk₁ o ho, reached_below rfl hv hle]
  by_cases hoi : o / span ps (n + 1) = i
  · have hmod : o % span ps (n + 1) < 2 ^ (ps - 3) * span ps n := by
      rw [← span_succ]
      exact Nat.mod_lt _ (span_pos ps (n + 1))
    have hwo : walk ps s.pte (n + 1) p o =
        walk ps s.pte n (s.pte p i &&& pteOutputAddrMask) (o % span ps (n + 1)) := by
      rw [walk_eq, hoi, walkEntry_table hv]
    rw [if_pos hoi, hwo]
    exact ⟨fun hr => (hwalk' _ hmod).1 hr.2, fun hr => (hwalk' _ hmod).2 fun h => hr ⟨hoi, h⟩⟩
  · rw [if_neg hoi]
    exact ⟨fun hr => absurd hr.1 hoi, fun _ => rfl⟩

/-- The table below the entry is freed when the range has all of the entry, or when nothing is
left in the table: no address outside the range is lost. -/
theorem Swept.freeTable (hle : lo + size ≤ span ps (n + 1))
    (hsw : Swept ps s s₁ (n + 1) K p S (i * span ps (n + 1) + lo)
      (i * span ps (n + 1) + (lo + size)))
    (hv : s.pte p i &&& 3 = 3) (hpte : s₁.pte p i = s.pte p i)
    (hfree : size = 2 ^ indexShift ps (n + 1) ∨
      s₁.pageTableIsClear ps (s.pte p i &&& pteOutputAddrMask) = true) :
    Swept ps s ((s₁.setPte p i 0).freePageTable (s.pte p i &&& pteOutputAddrMask)) (n + 1) K p S
      (i * span ps (n + 1) + lo) (i * span ps (n + 1) + (lo + size)) := by
  have hB := span_pos ps (n + 1)
  obtain ⟨S₁, hown₁, hframe₁, hwalk₁⟩ := hsw
  obtain ⟨S₂, hown₂, hframe₂, hwalk₂⟩ :=
    hown₁.clearEntry hi (show ((s₁.setPte p i 0).freePageTable
      (s.pte p i &&& pteOutputAddrMask)).pte = _ from rfl)
      (.inr ⟨⟨n, rfl⟩, by rw [hpte]; exact hv, by rw [hpte]; rfl⟩)
  refine ⟨S₂, hown₂, hframe₁.trans hframe₂, fun o ho => ⟨fun hr => ?_, fun hr => ?_⟩⟩
  · rw [hwalk₂ o ho]
    split_ifs
    · rfl
    · exact (hwalk₁ o ho).1 hr
  · rw [hwalk₂ o ho]
    split_ifs with hoi
    · rcases hfree with hfull | hempty
      · -- the whole entry is in the range
        refine absurd ⟨o, ?_, ?_, .inl rfl⟩ hr
        all_goals
          have hin := (mem_span hB).2 hoi
          rw [span, ← hfull] at hin hle
          rw [span, ← hfull]
          omega
      · have hq : ∀ j < 2 ^ (ps - 3), s₁.pte (s.pte p i &&& pteOutputAddrMask) j = 0 := by
          intro j hj
          simp only [Tables.pageTableIsClear, List.all_eq_true, List.mem_range,
            decide_eq_true_eq] at hempty
          exact hempty j hj
        rw [← (hwalk₁ o ho).2 hr, walk_eq, hoi, hpte, walkEntry_table hv]
        refine (walk_clear (hq _ ?_)).symm
        rw [Nat.div_lt_iff_lt_mul (span_pos ..), ← span_succ]
        exact Nat.mod_lt _ hB
    · exact (hwalk₁ o ho).2 hr

end Entry

/-- The body of the loop, given the level below: an empty entry stays, a leaf goes as a whole,
and a table is swept and perhaps freed. -/
theorem unmapEntry_swept
    (hbelow : ∀ k, n = k + 1 → ∀ (s : Tables) (q : ℕ) (T : Set ℕ) (lo size : ℕ),
      Owns ps s k (2 ^ (ps - 3)) q T → lo + size ≤ 2 ^ (ps - 3) * span ps k →
      Swept ps s (arm64MmuUnmapPt ps k s lo size q) k (2 ^ (ps - 3)) q T lo (lo + size))
    (h : Owns ps s n K p S) (hi : i < K) {lo size : ℕ} (hpos : 0 < size)
    (hle : lo + size ≤ span ps n) :
    Swept ps s (unmapEntry ps n p s i lo size) n K p S (i * span ps n + lo)
      (i * span ps n + (lo + size)) := by
  obtain ⟨T, hslot, -⟩ := h.entry hi
  cases n with
  | zero =>
    unfold unmapEntry
    split
    · rename_i hne
      rcases hslot.2 with h0 | h3
      · exact absurd h0 hne
      · exact h.swept_leaf hi hpos hle ⟨_, _, walkEntry_page h3⟩
    · rename_i hz
      exact h.swept_empty hle (not_not.1 hz)
  | succ n =>
    unfold unmapEntry
    dsimp only
    split
    · rename_i hv
      replace hv : s.pte p i &&& 3 = 3 := hv
      obtain ⟨hpte, hsw⟩ := h.swept_below hi hle hv fun T hT =>
        hbelow n rfl s _ T lo size hT (by rw [← span_succ]; exact hle)
      rw [arm64MmuUnmapPt] at hpte hsw
      split
      · rename_i hfree
        exact Swept.freeTable hi hle hsw hv hpte hfree
      · exact hsw
    · rename_i hv
      split
      · rename_i hne
        rcases hslot with ⟨-, h0 | h1⟩ | ⟨h3, -⟩
        · exact absurd h0 hne
        · exact h.swept_leaf hi hpos hle ⟨_, _, walkEntry_block h1⟩
        · exact absurd h3 hv
      · rename_i hz
        exact h.swept_empty hle (not_not.1 hz)

/-- The first chunk of a range: what is left of the entry it starts in, or all of it. -/
theorem chunk_facts {B size : ℕ} (lo : ℕ) (hB : 0 < B) (hpos : 0 < size) :
    lo / B * B + lo % B = lo ∧ 0 < min size (B - lo % B) ∧ lo % B + min size (B - lo % B) ≤ B ∧
      lo + min size (B - lo % B) = min (lo + size) ((lo / B + 1) * B) := by
  have hdm := Nat.div_add_mod lo B
  have hlt := Nat.mod_lt lo hB
  rw [mul_comm] at hdm
  refine ⟨hdm, by omega, by omega, ?_⟩
  rw [Nat.succ_mul]
  omega

/-- The loop, given its body. -/
theorem unmapLoop_swept {entry : Tables → ℕ → ℕ → ℕ → Tables}
    (hentry : ∀ (s : Tables) (S : Set ℕ) (i lo size : ℕ), Owns ps s n K p S → i < K → 0 < size →
      lo + size ≤ span ps n → Swept ps s (entry s i lo size) n K p S (i * span ps n + lo)
        (i * span ps n + (lo + size)))
    (fuel : ℕ) (h : Owns ps s n K p S) {lo size : ℕ} (hfuel : size ≤ fuel)
    (hle : lo + size ≤ K * span ps n) :
    Swept ps s (unmapLoop entry (indexShift ps n) fuel s lo size) n K p S lo (lo + size) := by
  have hB := span_pos ps n
  induction fuel generalizing s S lo size with
  | zero =>
    obtain rfl : size = 0 := by omega
    exact swept_refl h lo
  | succ fuel ih =>
    unfold unmapLoop
    split
    · rename_i hz
      subst hz
      exact swept_refl h lo
    · rename_i hpos
      dsimp only
      rw [and_span, shiftRight_indexShift, ← span]
      obtain ⟨hlo, hchunk, hfit, hend⟩ := chunk_facts lo hB (Nat.pos_of_ne_zero hpos)
      generalize hc : min size (span ps n - lo % span ps n) = chunk at hchunk hfit hend ⊢
      have hchunk_le : chunk ≤ size := by omega
      have hi : lo / span ps n < K := by
        rw [Nat.div_lt_iff_lt_mul hB]
        omega
      obtain ⟨S₁, hown₁, hframe₁, hwalk₁⟩ := hentry s S (lo / span ps n) (lo % span ps n) chunk h
        hi hchunk hfit
      have hown : ∀ o, Reached ps s.pte n p lo (lo + chunk) o → o / span ps n = lo / span ps n :=
        fun o hr => by
          have hr' : Reached ps s.pte n p (lo / span ps n * span ps n + lo % span ps n)
              (lo / span ps n * span ps n + (lo % span ps n + chunk)) o := by
            rwa [← Nat.add_assoc, hlo]
          exact hr'.div hfit
      rw [← Nat.add_assoc, hlo] at hwalk₁
      generalize entry s (lo / span ps n) (lo % span ps n) chunk = s₁ at hown₁ hframe₁ hwalk₁ ⊢
      have hsum : lo + chunk + (size - chunk) = lo + size := by omega
      -- the rest of the range lies in other entries, whose walks are as before
      have hrest : ∀ o, Reached ps s₁.pte n p (lo + chunk) (lo + size) o ↔
          Reached ps s.pte n p (lo + chunk) (lo + size) o := by
        refine fun o => exists_congr fun o₁ => and_congr_right fun hl => and_congr_right fun hh => ?_
        have hother : ¬Reached ps s.pte n p lo (lo + chunk) o₁ := by
          intro hr
          have hin := (mem_span hB).2 (hown o₁ hr)
          rw [Nat.succ_mul] at hend
          omega
        rw [(hwalk₁ o₁ (by omega)).2 hother]
      obtain ⟨S₂, hown₂, hframe₂, hwalk₂⟩ := ih hown₁ (show size - chunk ≤ fuel by omega)
        (show lo + chunk + (size - chunk) ≤ K * span ps n by omega)
      rw [hsum] at hwalk₂
      refine ⟨S₂, hown₂, hframe₁.trans hframe₂, fun o ho => ?_⟩
      have hwalk₂ := hwalk₂ o ho
      have hwalk₁ := hwalk₁ o ho
      rw [hrest] at hwalk₂
      rw [reached_append (show lo ≤ lo + chunk by omega) (show lo + chunk ≤ lo + size by omega)]
      by_cases h₂ : Reached ps s.pte n p (lo + chunk) (lo + size) o
      · exact ⟨fun _ => hwalk₂.1 h₂, fun hno => absurd (.inr h₂) hno⟩
      · rw [hwalk₂.2 h₂]
        exact ⟨fun hr => hwalk₁.1 (hr.resolve_right h₂), fun hno => hwalk₁.2 fun h₁ => hno (.inl h₁)⟩

/-- **`arm64_mmu_unmap_pt`** makes what its range reaches untranslated, and nothing else. -/
theorem unmapPt_swept (h : Owns ps s n K p S) {lo size : ℕ} (hle : lo + size ≤ K * span ps n) :
    Swept ps s (arm64MmuUnmapPt ps n s lo size p) n K p S lo (lo + size) := by
  induction n generalizing s K p S lo size with
  | zero =>
    refine unmapLoop_swept (fun s S i lo size h hi hpos hfit => ?_) size h le_rfl hle
    exact unmapEntry_swept (fun k hk => by omega) h hi hpos hfit
  | succ n ih =>
    refine unmapLoop_swept (fun s S i lo size h hi hpos hfit => ?_) size h le_rfl hle
    refine unmapEntry_swept (fun k hk s q T lo size hq hle => ?_) h hi hpos hfit
    obtain rfl : n = k := by omega
    exact ih hq hle

/-- A range that cuts no mapping reaches its own addresses only. -/
theorem Whole.reached_iff {m : ℕ → ℕ → ℕ} {lo hi o : ℕ} (h : Whole ps m n p lo hi) :
    Reached ps m n p lo hi o ↔ lo ≤ o ∧ o < hi := by
  constructor
  · rintro ⟨o₁, hl, hh, rfl | ⟨k, v, a, hw, hd⟩⟩
    · exact ⟨hl, hh⟩
    · exact h o₁ hl hh k v a hw o hd
  · exact fun ho => ⟨o, ho.1, ho.2, .inl rfl⟩

/-- It makes exactly its range untranslated, if this cuts no mapping. -/
theorem unmapPt_cleared (h : Owns ps s n K p S) {lo size : ℕ} (hle : lo + size ≤ K * span ps n)
    (hwhole : Whole ps s.pte n p lo (lo + size)) :
    Cleared ps s (arm64MmuUnmapPt ps n s lo size p) n K p S lo (lo + size) := by
  obtain ⟨S', hown, hframe, hwalk⟩ := unmapPt_swept h hle
  refine ⟨S', hown, hframe, fun o ho => ?_⟩
  split_ifs with hin
  · exact (hwalk o ho).1 (hwhole.reached_iff.2 hin)
  · exact (hwalk o ho).2 fun hr => hin (hwhole.reached_iff.1 hr)

end Clear

end Arm64
end LittleKernel
