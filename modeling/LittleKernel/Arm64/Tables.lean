/-
# What a page table owns

The tables form a tree in memory: `IsTable` says that the tables below a table, as
many levels down as it has, are the set `S`, that no table hangs below two
entries, and that every entry is empty, a leaf, or the descriptor of a table one
level down.  `Owns` adds that these tables are in use.

Steps of the code are framed by `Frame`: a page in use outside `S` keeps its
contents and stays in use, and a table that joins `S` was not in use before.
`Owns.entry` puts a change below one entry of a table back into the table.
-/

import Mathlib.Order.CompletePartialOrder
import LittleKernel.Arm64.Mmu
import Mathlib.Data.Set.Lattice

namespace LittleKernel
namespace Arm64

open Word Function

/-! ### Shifts and masks -/

section Bits

theorem indexShift_succ (ps n : ℕ) : indexShift ps (n + 1) = indexShift ps n + (ps - 3) := by
  simp only [indexShift, Nat.add_assoc, Nat.succ_mul]

/-- The bytes that one entry of a table covers. -/
def span (ps n : ℕ) : ℕ := 2 ^ indexShift ps n

theorem span_pos (ps n : ℕ) : 0 < span ps n := Nat.two_pow_pos _

theorem span_succ (ps n : ℕ) : span ps (n + 1) = 2 ^ (ps - 3) * span ps n := by
  rw [span, span, indexShift_succ, pow_add, mul_comm]

theorem shiftRight_indexShift (ps n x : ℕ) : x >>> indexShift ps n = x / span ps n := by
  rw [Nat.shiftRight_eq_div_pow, span]

theorem and_span (ps n x : ℕ) : x &&& (2 ^ indexShift ps n - 1) = x % span ps n := by
  rw [Nat.and_two_pow_sub_one_eq_mod, span]

theorem sub_shiftLeft (ps n x : ℕ) :
    x - (x / span ps n) <<< indexShift ps n = x % span ps n := by
  rw [Nat.shiftLeft_eq, ← span, Nat.mod_def, mul_comm]

end Bits

/-! ### The walk, by entries -/

/-- The walk from the entry `v` of a table of level `n`, at `rem` bytes into its span. -/
def walkEntry (ps : ℕ) (m : ℕ → ℕ → ℕ) (n v rem : ℕ) : Walk :=
  match n with
  | 0 =>
    if v &&& 3 = 0 then .notFound
    else if v &&& 3 = 3 then .leaf (indexShift ps 0) v ((v &&& pteOutputAddrMask) + rem)
    else .panic
  | n + 1 =>
    if v &&& 3 = 0 then .notFound
    else if v &&& 3 = 1 then .leaf (indexShift ps (n + 1)) v ((v &&& pteOutputAddrMask) + rem)
    else if v &&& 3 = 3 then walk ps m n (v &&& pteOutputAddrMask) rem
    else .panic

section Walk

variable {ps : ℕ} {m m' : ℕ → ℕ → ℕ} {n K p : ℕ} {S : Set ℕ}

theorem walk_eq (ps : ℕ) (m : ℕ → ℕ → ℕ) (n p o : ℕ) :
    walk ps m n p o = walkEntry ps m n (m p (o / span ps n)) (o % span ps n) := by
  cases n with
  | zero =>
    unfold walk walkEntry
    simp only [sub_shiftLeft, shiftRight_indexShift, pteDescriptorMask, ptePage]
  | succ n =>
    unfold walk walkEntry
    simp only [sub_shiftLeft, shiftRight_indexShift, pteDescriptorMask, pteBlock, pteTable]

@[simp] theorem walkEntry_zero (rem : ℕ) : walkEntry ps m n 0 rem = .notFound := by
  cases n <;> simp [walkEntry]

variable {v : ℕ}

theorem walkEntry_page (hv : v &&& 3 = 3) (rem : ℕ) :
    walkEntry ps m 0 v rem = .leaf (indexShift ps 0) v ((v &&& pteOutputAddrMask) + rem) := by
  simp [walkEntry, hv]

theorem walkEntry_block (hv : v &&& 3 = 1) (rem : ℕ) :
    walkEntry ps m (n + 1) v rem =
      .leaf (indexShift ps (n + 1)) v ((v &&& pteOutputAddrMask) + rem) := by
  simp [walkEntry, hv]

theorem walkEntry_table (hv : v &&& 3 = 3) (rem : ℕ) :
    walkEntry ps m (n + 1) v rem = walk ps m n (v &&& pteOutputAddrMask) rem := by
  simp [walkEntry, hv]

/-- A leaf is no larger than the span of its table's entries. -/
theorem walk_leaf_shift {o k v a : ℕ} (h : walk ps m n p o = .leaf k v a) :
    k ≤ indexShift ps n := by
  induction n generalizing p o with
  | zero =>
    rw [walk_eq] at h
    unfold walkEntry at h
    dsimp only at h
    split_ifs at h
    cases h
    exact le_rfl
  | succ n ih =>
    rw [walk_eq] at h
    unfold walkEntry at h
    dsimp only at h
    split_ifs at h
    · cases h
      exact le_rfl
    · refine (ih h).trans ?_
      rw [indexShift_succ]
      omega

/-! ### Ownership -/

/-- A table with `K` entries whose entries satisfy `slot`, each with its own set of tables. -/
def TableOf (slot : ℕ → Set ℕ → Prop) (m : ℕ → ℕ → ℕ) (K p : ℕ) (S : Set ℕ) : Prop :=
  ∃ F : ℕ → Set ℕ, S = {p} ∪ ⋃ i, F i ∧ (∀ i, p ∉ F i) ∧
    (∀ i j, i ≠ j → Disjoint (F i) (F j)) ∧ ∀ i < K, slot (m p i) (F i)

/-- What an entry of a table of level `n` can be, with the tables below it. -/
def Slot (ps : ℕ) (m : ℕ → ℕ → ℕ) : ℕ → ℕ → Set ℕ → Prop
  | 0, v, T => T = ∅ ∧ (v = 0 ∨ v &&& 3 = 3)
  | n + 1, v, T => (T = ∅ ∧ (v = 0 ∨ v &&& 3 = 1)) ∨
      (v &&& 3 = 3 ∧ TableOf (Slot ps m n) m (2 ^ (ps - 3)) (v &&& pteOutputAddrMask) T)

/-- The tables of `S` hang below the table `p` of level `n` with `K` entries. -/
def IsTable (ps : ℕ) (m : ℕ → ℕ → ℕ) (n K p : ℕ) (S : Set ℕ) : Prop :=
  TableOf (Slot ps m n) m K p S

theorem IsTable.self_mem (h : IsTable ps m n K p S) : p ∈ S := by
  obtain ⟨F, rfl, -⟩ := h
  simp

theorem Slot.zero (ps : ℕ) (m : ℕ → ℕ → ℕ) (n : ℕ) : Slot ps m n 0 ∅ := by
  cases n with
  | zero => exact ⟨rfl, .inl rfl⟩
  | succ n => exact .inl ⟨rfl, .inl rfl⟩

theorem isTable_clear (ps n K : ℕ) (hp : ∀ i < K, m p i = 0) : IsTable ps m n K p {p} := by
  refine ⟨fun _ => ∅, by simp, by simp, by simp, fun i hi => ?_⟩
  rw [hp i hi]
  exact Slot.zero ps m n

theorem walk_clear {o : ℕ} (hp : m p (o / span ps n) = 0) : walk ps m n p o = .notFound := by
  rw [walk_eq, hp, walkEntry_zero]

theorem IsTable.congr_of_slot
    (hslot : ∀ v T, Slot ps m n v T → (∀ a ∈ T, m' a = m a) → Slot ps m' n v T)
    (h : IsTable ps m n K p S) (hm : ∀ a ∈ S, m' a = m a) : IsTable ps m' n K p S := by
  obtain ⟨F, rfl, hself, hdisj, hF⟩ := h
  refine ⟨F, rfl, hself, hdisj, fun i hi => ?_⟩
  rw [hm p (by simp)]
  exact hslot _ _ (hF i hi) fun a ha => hm a (.inr (Set.mem_iUnion.2 ⟨i, ha⟩))

theorem Slot.congr {T : Set ℕ} (h : Slot ps m n v T) (hm : ∀ a ∈ T, m' a = m a) :
    Slot ps m' n v T := by
  induction n generalizing v T with
  | zero => exact h
  | succ n ih =>
    rcases h with h | ⟨hv, hT⟩
    · exact .inl h
    · exact .inr ⟨hv, IsTable.congr_of_slot (fun _ _ hs ha => ih hs ha) hT hm⟩

/-- The walk reads only the tables a table owns. -/
theorem IsTable.walk_congr (h : IsTable ps m n K p S) (hm : ∀ a ∈ S, m' a = m a) {o : ℕ}
    (ho : o < K * span ps n) : walk ps m' n p o = walk ps m n p o := by
  induction n generalizing K p S o with
  | zero =>
    rw [walk_eq, walk_eq, hm p h.self_mem]
    rfl
  | succ n ih =>
    have hp := h.self_mem
    obtain ⟨F, rfl, -, -, hF⟩ := h
    have hi : o / span ps (n + 1) < K := (Nat.div_lt_iff_lt_mul (span_pos ..)).2 ho
    have hslot := hF _ hi
    rw [walk_eq, walk_eq, hm p hp]
    rcases hslot with ⟨-, hv⟩ | ⟨hv, hT⟩
    · rcases hv with hv | hv
      · simp [hv]
      · rw [walkEntry_block hv, walkEntry_block hv]
    · rw [walkEntry_table hv, walkEntry_table hv]
      refine ih (S := F (o / span ps (n + 1))) hT
        (fun a ha => hm a (.inr (Set.mem_iUnion.2 ⟨_, ha⟩))) ?_
      rw [← span_succ]
      exact Nat.mod_lt _ (span_pos ..)

end Walk

/-- The tables below `p` are `S`, and in use. -/
structure Owns (ps : ℕ) (s : Tables) (n K p : ℕ) (S : Set ℕ) : Prop where
  isTable : IsTable ps s.pte n K p S
  live : ∀ a ∈ S, s.live a = true

/-- A step that works on the tables `S` and leaves `S'`. -/
structure Frame (s s' : Tables) (S S' : Set ℕ) : Prop where
  keep : ∀ a, a ∉ S → s.live a = true → s'.pte a = s.pte a ∧ s'.live a = true
  new : ∀ a ∈ S', a ∈ S ∨ s.live a = false

section Frame

variable {ps : ℕ} {s s' s'' : Tables} {n K p i : ℕ} {S S' S'' T T' : Set ℕ}

theorem Frame.refl (s : Tables) (S : Set ℕ) : Frame s s S S :=
  ⟨fun _ _ h => ⟨rfl, h⟩, fun _ h => .inl h⟩

theorem Frame.trans (h : Frame s s' S S') (h' : Frame s' s'' S' S'') : Frame s s'' S S'' := by
  constructor
  · intro a ha hlive
    obtain ⟨hpte, hlive'⟩ := h.keep a ha hlive
    have ha' : a ∉ S' := fun ha' => by
      rcases h.new a ha' with hmem | hdead
      · exact ha hmem
      · rw [hlive] at hdead
        cases hdead
    obtain ⟨hpte', hlive''⟩ := h'.keep a ha' hlive'
    exact ⟨hpte'.trans hpte, hlive''⟩
  · intro a ha
    rcases h'.new a ha with hmem | hdead
    · exact h.new a hmem
    · by_contra hno
      obtain ⟨haS, hlive⟩ := not_or.1 hno
      rw [Bool.not_eq_false] at hlive
      rw [(h.keep a haS hlive).2] at hdead
      cases hdead

/-- **One entry changes.**  If a step works on the tables `T` below entry `i` and on the
entry itself, and what is then below the entry is `T'`, the table is one again, and the
walks through the other entries are as before. -/
theorem Owns.entry (h : Owns ps s n K p S) (hi : i < K) :
    ∃ T, Slot ps s.pte n (s.pte p i) T ∧ T ⊆ S ∧ p ∉ T ∧ ∀ s' T',
      (∀ j, j ≠ i → s'.pte p j = s.pte p j) → s'.live p = true →
      (∀ a, a ≠ p → a ∉ T → s.live a = true → s'.pte a = s.pte a ∧ s'.live a = true) →
      (∀ a ∈ T', (a ∈ T ∨ s.live a = false) ∧ s'.live a = true) → Slot ps s'.pte n (s'.pte p i) T' →
      ∃ S', Owns ps s' n K p S' ∧ Frame s s' S S' ∧
        ∀ o < K * span ps n, o / span ps n ≠ i → walk ps s'.pte n p o = walk ps s.pte n p o := by
  obtain ⟨⟨F, rfl, hself, hdisj, hF⟩, hlive⟩ := h
  have hmemF : ∀ {j a}, a ∈ F j → a ∈ {p} ∪ ⋃ j, F j := fun {j a} ha =>
    .inr (Set.mem_iUnion.2 ⟨j, ha⟩)
  have hpS : s.live p = true := hlive p (by simp)
  refine ⟨F i, hF i hi, fun a ha => hmemF ha, hself i,
    fun s' T' hpte hplive hkeep hT' hslot => ?_⟩
  -- the tables of the other entries are in use, so the step has left them alone
  have hother : ∀ j a, j ≠ i → a ∈ F j → s'.pte a = s.pte a ∧ s'.live a = true := by
    intro j a hj ha
    refine hkeep a ?_ ?_ (hlive a (hmemF ha))
    · rintro rfl
      exact hself j ha
    · exact fun hai => Set.disjoint_left.1 (hdisj j i hj) ha hai
  have hpT' : p ∉ T' := fun hp => by
    rcases (hT' p hp).1 with hmem | hdead
    · exact hself i hmem
    · rw [hpS] at hdead
      cases hdead
  have hT'F : ∀ j, j ≠ i → Disjoint T' (F j) := by
    intro j hj
    rw [Set.disjoint_left]
    intro a ha haj
    rcases (hT' a ha).1 with hmem | hdead
    · exact Set.disjoint_left.1 (hdisj j i hj) haj hmem
    · rw [hlive a (hmemF haj)] at hdead
      cases hdead
  have hslot' : ∀ j < K, j ≠ i → Slot ps s'.pte n (s'.pte p j) (F j) := by
    intro j hj hne
    rw [hpte j hne]
    exact (hF j hj).congr fun a ha => (hother j a hne ha).1
  refine ⟨{p} ∪ ⋃ j, update F i T' j,
    ⟨⟨update F i T', rfl, fun j => ?_, fun j k hjk => ?_, fun j hj => ?_⟩, fun a ha => ?_⟩,
    ⟨fun a ha hal => ?_, fun a ha => ?_⟩, fun o ho hoi => ?_⟩
  · rcases eq_or_ne j i with rfl | hne
    · simpa using hpT'
    · simpa [hne] using hself j
  · rcases eq_or_ne j i with rfl | hj
    · simpa [hjk.symm] using hT'F k hjk.symm
    · rcases eq_or_ne k i with rfl | hk
      · simpa [hj] using (hT'F j hj).symm
      · simpa [hj, hk] using hdisj j k hjk
  · rcases eq_or_ne j i with rfl | hne
    · simpa using hslot
    · simpa [hne] using hslot' j hj hne
  · rcases ha with rfl | ha
    · exact hplive
    · obtain ⟨j, hj⟩ := Set.mem_iUnion.1 ha
      rcases eq_or_ne j i with rfl | hne
      · rw [update_self] at hj
        exact (hT' a hj).2
      · rw [update_of_ne hne] at hj
        exact (hother j a hne hj).2
  · refine hkeep a (fun hap => ha (.inl hap)) (fun hai => ha (hmemF hai)) hal
  · rcases ha with rfl | ha
    · exact .inl (.inl rfl)
    · obtain ⟨j, hj⟩ := Set.mem_iUnion.1 ha
      rcases eq_or_ne j i with rfl | hne
      · rw [update_self] at hj
        exact (hT' a hj).1.imp_left fun hai => hmemF hai
      · rw [update_of_ne hne] at hj
        exact .inl (hmemF hj)
  · have hoK : o / span ps n < K := (Nat.div_lt_iff_lt_mul (span_pos ..)).2 ho
    rw [walk_eq, walk_eq, hpte _ hoi]
    cases n with
    | zero => rfl
    | succ n =>
      rcases hF _ hoK with ⟨-, hv⟩ | ⟨hv, hT⟩
      · rcases hv with hv | hv
        · simp [hv]
        · rw [walkEntry_block hv, walkEntry_block hv]
      · rw [walkEntry_table hv, walkEntry_table hv]
        refine IsTable.walk_congr (K := 2 ^ (ps - 3)) hT
          (fun a ha => (hother _ a hoi ha).1) ?_
        rw [← span_succ]
        exact Nat.mod_lt _ (span_pos ..)

end Frame

end Arm64
end LittleKernel
