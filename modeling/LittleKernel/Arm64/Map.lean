/-
# Mapping

`arm64_mmu_map_pt` either maps its whole range, of which nothing was mapped
before, or leaves every translation as it was: `mapPt_spec`.  When an entry
fails, the entries before it hold just what the call has put there, so the
unmapping of their range (`Arm64.Unmap`) undoes them; a table that was allocated
on the way may stay behind, empty.
-/

import LittleKernel.Arm64.Unmap

namespace LittleKernel
namespace Arm64

open Word Function

/-! ### Descriptors -/

/-- Attributes hold no bit of a descriptor's type or address. -/
def IsAttrs (attrs : ℕ) : Prop := attrs &&& (pteOutputAddrMask ||| 3) = 0

instance (attrs : ℕ) : Decidable (IsAttrs attrs) := inferInstanceAs (Decidable (_ = _))

section Bits

variable {a attrs t m : ℕ}

theorem and_outputAddrMask (hd : 2 ^ 12 ∣ a) (hlt : a < 2 ^ 48) : a &&& pteOutputAddrMask = a := by
  obtain ⟨x, rfl⟩ := hd
  have hm : pteOutputAddrMask = (2 ^ 36 - 1) <<< 12 := by decide
  have hx : 2 ^ 12 * x = x <<< 12 := by rw [Nat.shiftLeft_eq, mul_comm]
  rw [hm, hx, ← Nat.shiftLeft_and_distrib, Nat.and_two_pow_sub_one_eq_mod,
    Nat.mod_eq_of_lt (by omega)]

theorem or_and_mask (k a b : ℕ) :
    (a ||| b) &&& (2 ^ k - 1) = 0 ↔ a % 2 ^ k = 0 ∧ b % 2 ^ k = 0 := by
  rw [Nat.and_two_pow_sub_one_eq_mod, Nat.or_mod_two_pow, Nat.or_eq_zero_iff]

theorem addr_and_eq_zero (ha : a &&& pteOutputAddrMask = a) (hm : pteOutputAddrMask &&& m = 0) :
    a &&& m = 0 := by
  rw [← ha, Nat.and_assoc, hm, Nat.and_zero]

theorem IsAttrs.parts (h : IsAttrs attrs) : attrs &&& pteOutputAddrMask = 0 ∧ attrs &&& 3 = 0 := by
  rw [IsAttrs, Nat.and_or_distrib_left, Nat.or_eq_zero_iff] at h
  exact h

variable (ha : a &&& pteOutputAddrMask = a)
include ha

theorem desc_type (hattrs : IsAttrs attrs) (ht : t &&& 3 = t) :
    (a ||| attrs ||| t) &&& 3 = t := by
  rw [Nat.and_or_distrib_right, Nat.and_or_distrib_right, addr_and_eq_zero ha (by decide),
    hattrs.parts.2, ht, Nat.zero_or, Nat.zero_or]

theorem desc_addr (hattrs : IsAttrs attrs)
    (ht : t &&& pteOutputAddrMask = 0) : (a ||| attrs ||| t) &&& pteOutputAddrMask = a := by
  rw [Nat.and_or_distrib_right, Nat.and_or_distrib_right, ha, hattrs.parts.1, ht, Nat.or_zero,
    Nat.or_zero]

theorem desc_attr (hm : pteOutputAddrMask &&& m = 0)
    (ht : t &&& m = 0) : (a ||| attrs ||| t) &&& m = attrs &&& m := by
  rw [Nat.and_or_distrib_right, Nat.and_or_distrib_right, addr_and_eq_zero ha hm, ht, Nat.zero_or,
    Nat.or_zero]

theorem mmuFlags_desc (ht : t = 1 ∨ t = 3) :
    mmuFlags (a ||| attrs ||| t) = mmuFlags attrs := by
  have hbit : ∀ m ∈ [0x20, 0xc0, 2 ^ 54, 2 ^ 53, 0x1c],
      (a ||| attrs ||| t) &&& m = attrs &&& m := by
    intro m hm
    refine desc_attr ha ?_ ?_
    · revert m
      decide
    · rcases ht with rfl | rfl <;> revert m <;> decide
  simp only [List.forall_mem_cons] at hbit
  obtain ⟨h₁, h₂, h₃, h₄, h₅, -⟩ := hbit
  unfold mmuFlags
  rw [h₁, h₂, h₃, h₄, h₅]

end Bits

/-! ### What a mapping does -/

/-- The address `a` with these attributes. -/
def Maps (w : Walk) (a attrs : ℕ) : Prop := ∃ k v, w = .leaf k v a ∧ mmuFlags v = mmuFlags attrs

/-- A step that leaves every translation as it was. -/
def Unchanged (ps : ℕ) (s s' : Tables) (n K p : ℕ) (S : Set ℕ) : Prop :=
  ∃ S', Owns ps s' n K p S' ∧ Frame s s' S S' ∧
    ∀ o < K * span ps n, walk ps s'.pte n p o = walk ps s.pte n p o

/-- A step that maps the addresses from `lo` to `hi`, of which none was mapped, and leaves
the others as they were. -/
structure MapsRange (ps attrs : ℕ) (s s' : Tables) (n K p : ℕ) (S' : Set ℕ) (lo hi paddr : ℕ) :
    Prop where
  owns : Owns ps s' n K p S'
  free : ∀ o, lo ≤ o → o < hi → walk ps s.pte n p o = .notFound
  whole : Whole ps s'.pte n p lo hi
  maps : ∀ o, lo ≤ o → o < hi → Maps (walk ps s'.pte n p o) (paddr + (o - lo)) attrs
  others : ∀ o < K * span ps n, ¬ (lo ≤ o ∧ o < hi) → walk ps s'.pte n p o = walk ps s.pte n p o

def Mapped (ps attrs : ℕ) (s s' : Tables) (n K p : ℕ) (S : Set ℕ) (lo hi paddr : ℕ) : Prop :=
  ∃ S', Frame s s' S S' ∧ MapsRange ps attrs s s' n K p S' lo hi paddr

section Map

variable {ps attrs : ℕ} {s s₁ s' : Tables} {n K p i : ℕ} {S S₁ : Set ℕ} {lo hi paddr : ℕ}

theorem unchanged_refl (h : Owns ps s n K p S) : Unchanged ps s s n K p S :=
  ⟨S, h, .refl s S, fun _ _ => rfl⟩

theorem Unchanged.mapped (h : Unchanged ps s s' n K p S) (lo paddr : ℕ) :
    Mapped ps attrs s s' n K p S lo lo paddr := by
  obtain ⟨S', hown, hframe, hwalk⟩ := h
  refine ⟨S', hframe, hown, fun o _ _ => by omega, fun o _ _ => by omega, fun o _ _ => by omega,
    fun o ho _ => hwalk o ho⟩

theorem Mapped.trans {mid size : ℕ} (h : Frame s s₁ S S₁)
    (h₁ : MapsRange ps attrs s s₁ n K p S₁ lo mid paddr)
    (h' : Mapped ps attrs s₁ s' n K p S₁ mid hi (paddr + size)) (hsize : lo + size = mid)
    (hhi : mid ≤ hi) (hK : hi ≤ K * span ps n) : Mapped ps attrs s s' n K p S lo hi paddr := by
  obtain ⟨S', hframe', h'⟩ := h'
  refine ⟨S', h.trans hframe', h'.owns, fun o hl hh => ?_, ?_, fun o hl hh => ?_, fun o ho hno => ?_⟩
  · rcases Nat.lt_or_ge o mid with hm | hm
    · exact h₁.free o hl hm
    · rw [← h₁.others o (by omega) (by omega)]
      exact h'.free o hm hh
  · refine (h₁.whole.congr fun o hl hm => ?_).append h'.whole (by omega) hhi
    exact h'.others o (by omega) (by omega)
  · rcases Nat.lt_or_ge o mid with hm | hm
    · rw [h'.others o (by omega) (by omega)]
      exact h₁.maps o hl hm
    · have hsum : paddr + (o - lo) = paddr + size + (o - mid) := by omega
      rw [hsum]
      exact h'.maps o hm hh
  · rw [h'.others o ho (by omega), h₁.others o ho (by omega)]

/-- A block or page descriptor in an entry that was empty. -/
theorem Owns.putLeaf (h : Owns ps s n K p S) (hi : i < K) (hz : s.pte p i = 0)
    (hpaddr : paddr &&& pteOutputAddrMask = paddr) (hattrs : IsAttrs attrs) {t : ℕ}
    (ht : t = if n = 0 then ptePage else pteBlock) :
    Mapped ps attrs s (s.setPte p i (paddr ||| attrs ||| t)) n K p S (i * span ps n)
      (i * span ps n + span ps n) paddr := by
  have hB := span_pos ps n
  have ht13 : t = 1 ∨ t = 3 := by
    rw [ht]
    split
    · exact .inr rfl
    · exact .inl rfl
  have htype : (paddr ||| attrs ||| t) &&& 3 = t :=
    desc_type hpaddr hattrs (by rcases ht13 with rfl | rfl <;> decide)
  have haddr : (paddr ||| attrs ||| t) &&& pteOutputAddrMask = paddr :=
    desc_addr hpaddr hattrs (by rcases ht13 with rfl | rfl <;> decide)
  have hpte : (s.setPte p i (paddr ||| attrs ||| t)).pte p i = paddr ||| attrs ||| t := by
    simp [Tables.setPte]
  have hin : ∀ o, i * span ps n ≤ o ∧ o < i * span ps n + span ps n ↔ o / span ps n = i :=
    fun o => mem_span hB
  obtain ⟨T, hslot, -, hpT, hnext⟩ := h.entry hi
  have hleaf : Slot ps (s.setPte p i (paddr ||| attrs ||| t)).pte n (paddr ||| attrs ||| t) ∅ := by
    cases n with
    | zero => exact ⟨rfl, .inr (htype.trans ht)⟩
    | succ n => exact .inl ⟨rfl, .inr (htype.trans ht)⟩
  have hwalk : ∀ o, o / span ps n = i →
      walk ps (s.setPte p i (paddr ||| attrs ||| t)).pte n p o =
        .leaf (indexShift ps n) (paddr ||| attrs ||| t) (paddr + o % span ps n) := by
    intro o ho
    rw [walk_eq, ho, hpte]
    cases n with
    | zero => rw [walkEntry_page (htype.trans ht), haddr]
    | succ n => rw [walkEntry_block (htype.trans ht), haddr]
  obtain ⟨S', hown, hframe, hothers⟩ := hnext (s.setPte p i (paddr ||| attrs ||| t)) ∅
    (fun j hj => by simp [Tables.setPte, hj]) (h.live p h.isTable.self_mem)
    (fun a hap _ hal => ⟨by simp [Tables.setPte, hap], hal⟩) (by simp)
    (by rw [hpte]; exact hleaf)
  refine ⟨S', hframe, hown, fun o hl hh => ?_, fun o hl hh k v a hw o' hd => ?_,
    fun o hl hh => ?_, fun o ho hno => ?_⟩
  · exact walk_clear ((hin o).1 ⟨hl, hh⟩ ▸ hz)
  · rw [hwalk o ((hin o).1 ⟨hl, hh⟩)] at hw
    cases hw
    rw [hin, ← (hin o).1 ⟨hl, hh⟩]
    exact hd
  · have hoi := (hin o).1 ⟨hl, hh⟩
    have hmod : o % span ps n = o - i * span ps n := by
      have hdm := Nat.div_add_mod o (span ps n)
      rw [hoi, mul_comm] at hdm
      omega
    exact ⟨_, _, by rw [hwalk o hoi, hmod], mmuFlags_desc hpaddr ht13⟩
  · exact hothers o ho fun hoi => hno ((hin o).2 hoi)

/-- The allocator fails, or gives a page that was not in use, cleared. -/
theorem allocPageTable_cases (s : Tables) :
    (s.allocPageTable.2 = none ∧ s.allocPageTable.1.pte = s.pte ∧
      s.allocPageTable.1.live = s.live) ∨
    ∃ a, s.allocPageTable.2 = some a ∧ s.live a = false ∧ a &&& pteOutputAddrMask = a ∧
      s.allocPageTable.1.pte = update s.pte a (fun _ => 0) ∧
      s.allocPageTable.1.live = update s.live a true := by
  unfold Tables.allocPageTable
  split
  · rename_i a pool _
    split
    · rename_i hfresh
      exact .inr ⟨a, rfl, hfresh.1, hfresh.2, rfl, rfl⟩
    · exact .inl ⟨rfl, rfl, rfl⟩
  · exact .inl ⟨rfl, rfl, rfl⟩
  · exact .inl ⟨rfl, rfl, rfl⟩

/-- A new table below an empty entry. -/
theorem Owns.link (h : Owns ps s (n + 1) K p S) (hi : i < K) (hz : s.pte p i = 0) {a : ℕ}
    (hdead : s.live a = false) (ha : a &&& pteOutputAddrMask = a)
    (hpte : s₁.pte = update s.pte a (fun _ => 0)) (hlive : s₁.live = update s.live a true) :
    Unchanged ps s (s₁.setPte p i (a ||| pteTable)) (n + 1) K p S ∧
      (s₁.setPte p i (a ||| pteTable)).pte p i &&& 3 = 3 ∧
      (s₁.setPte p i (a ||| pteTable)).pte p i &&& pteOutputAddrMask = a := by
  have hp : s.live p = true := h.live p h.isTable.self_mem
  have hap : a ≠ p := by
    rintro rfl
    rw [hp] at hdead
    cases hdead
  have hB := span_pos ps (n + 1)
  have htype : (a ||| pteTable) &&& 3 = 3 := by
    rw [Nat.and_or_distrib_right, addr_and_eq_zero ha (by decide), Nat.zero_or]
    decide
  have haddr : (a ||| pteTable) &&& pteOutputAddrMask = a := by
    rw [Nat.and_or_distrib_right, ha, show pteTable &&& pteOutputAddrMask = 0 by decide,
      Nat.or_zero]
  generalize hs' : s₁.setPte p i (a ||| pteTable) = s'
  have hentry : s'.pte p i = a ||| pteTable := by simp [← hs', Tables.setPte]
  have hnew : s'.pte a = fun _ => 0 := by simp [← hs', Tables.setPte, hap, hpte]
  have hlive' : s'.live = update s.live a true := by simp [← hs', Tables.setPte, hlive]
  obtain ⟨T, -, -, hpT, hnext⟩ := h.entry hi
  obtain ⟨S', hown, hframe, hothers⟩ := hnext s' {a}
    (fun j hj => by simp [← hs', Tables.setPte, hj, hpte, hap.symm])
    (by rw [hlive', update_of_ne hap.symm, hp])
    (fun b hbp _ hbl => by
      have hba : b ≠ a := by
        rintro rfl
        rw [hbl] at hdead
        cases hdead
      exact ⟨by simp [← hs', Tables.setPte, hbp, hpte, hba], by simp [hlive', hba, hbl]⟩)
    (fun b hb => by
      obtain rfl : b = a := hb
      exact ⟨.inr hdead, by simp [hlive']⟩)
    (by
      rw [hentry]
      refine .inr ⟨htype, ?_⟩
      rw [haddr]
      exact isTable_clear ps n _ fun j _ => by rw [hnew])
  refine ⟨⟨S', hown, hframe, fun o ho => ?_⟩, by rw [hentry, htype], by rw [hentry, haddr]⟩
  by_cases hoi : o / span ps (n + 1) = i
  · have hbefore : walk ps s.pte (n + 1) p o = .notFound := walk_clear (hoi ▸ hz)
    rw [hbefore, walk_eq, hoi, hentry, walkEntry_table htype, haddr]
    exact walk_clear (by rw [hnew])
  · exact hothers o ho hoi

/-- `arm64_mmu_get_page_table` leaves every translation as it was. -/
theorem getPageTable_spec (h : Owns ps s (n + 1) K p S) (hi : i < K) :
    ∃ s₁ r, arm64MmuGetPageTable s i p = some (s₁, r) ∧ Unchanged ps s s₁ (n + 1) K p S ∧
      ∀ q, r = some q → s₁.pte p i &&& 3 = 3 ∧ s₁.pte p i &&& pteOutputAddrMask = q := by
  obtain ⟨T, hslot, -⟩ := h.entry hi
  rcases hslot with ⟨-, hz | h1⟩ | ⟨h3, -⟩
  · have hget : arm64MmuGetPageTable s i p =
        s.allocPageTable.2.elim (some (s.allocPageTable.1, none)) fun a =>
          some (s.allocPageTable.1.setPte p i (a ||| pteTable), some a) := by
      rw [arm64MmuGetPageTable, hz]
      rcases s.allocPageTable with ⟨s₁, _ | a⟩ <;> rfl
    rw [hget]
    rcases allocPageTable_cases s with ⟨hr, hpte, hlive⟩ | ⟨a, hr, hdead, ha, hpte, hlive⟩
    · generalize s.allocPageTable = q at hr hpte hlive ⊢
      obtain ⟨s₁, r⟩ := q
      dsimp only at hr hpte hlive
      subst hr
      refine ⟨s₁, none, rfl, ⟨S, ⟨?_, ?_⟩, ⟨fun a _ hal => ?_, fun a ha => .inl ha⟩, fun o _ => ?_⟩,
        by simp⟩
      · rw [hpte]
        exact h.isTable
      · rw [hlive]
        exact h.live
      · rw [hpte, hlive]
        exact ⟨rfl, hal⟩
      · rw [hpte]
    · generalize s.allocPageTable = q at hr hpte hlive ⊢
      obtain ⟨s₁, r⟩ := q
      dsimp only at hr hpte hlive
      subst hr
      obtain ⟨hun, htype, haddr⟩ := h.link hi hz hdead ha hpte hlive
      refine ⟨_, _, rfl, hun, fun q hq => ?_⟩
      cases hq
      exact ⟨htype, haddr⟩
  · refine ⟨s, none, ?_, unchanged_refl h, by simp⟩
    simp [arm64MmuGetPageTable, pteDescriptorMask, pteTable, pteBlock, h1]
  · refine ⟨s, some (s.pte p i &&& pteOutputAddrMask), ?_, unchanged_refl h, fun q hq => ?_⟩
    · simp [arm64MmuGetPageTable, pteDescriptorMask, pteTable, h3]
    · exact ⟨h3, Option.some.inj hq⟩

/-- What `arm64_mmu_map_pt` does to a table: it maps the range and succeeds, or fails and
leaves every translation as it was. -/
def MapPtSpec (ps attrs n K : ℕ) : Prop :=
  ∀ (s : Tables) (p : ℕ) (S : Set ℕ) (lo paddr size : ℕ), Owns ps s n K p S →
    lo + size ≤ K * span ps n → paddr + size ≤ 2 ^ 48 →
    ∃ s' ret, arm64MmuMapPt ps attrs n s lo paddr size p = some (s', ret) ∧
      (ret = .ok → Mapped ps attrs s s' n K p S lo (lo + size) paddr) ∧
      (ret ≠ .ok → Unchanged ps s s' n K p S)

/-- `arm64_mmu_map_pt` on the table below an entry, seen from the table above. -/
theorem mapBelow (hbelow : MapPtSpec ps attrs n (2 ^ (ps - 3))) (h : Owns ps s (n + 1) K p S)
    (hi : i < K) (hv : s.pte p i &&& 3 = 3) {lo size : ℕ} (hfit : lo + size ≤ span ps (n + 1))
    (hpaddr : paddr + size ≤ 2 ^ 48) :
    ∃ s' ret, arm64MmuMapPt ps attrs n s lo paddr size (s.pte p i &&& pteOutputAddrMask) =
        some (s', ret) ∧ (ret = .ok → Mapped ps attrs s s' (n + 1) K p S (i * span ps (n + 1) + lo)
        (i * span ps (n + 1) + (lo + size)) paddr) ∧
      (ret ≠ .ok → Unchanged ps s s' (n + 1) K p S) := by
  have hB := span_pos ps (n + 1)
  obtain ⟨T, hownT, hup⟩ := h.belowEntry hi hv
  obtain ⟨s', ret, hmap, hok, herr⟩ :=
    hbelow s _ T lo paddr size hownT (by rw [← span_succ]; exact hfit) hpaddr
  have hmod : ∀ o, o % span ps (n + 1) < 2 ^ (ps - 3) * span ps n := fun o => by
    rw [← span_succ]
    exact Nat.mod_lt _ hB
  have hwo : ∀ o, o / span ps (n + 1) = i → walk ps s.pte (n + 1) p o =
      walk ps s.pte n (s.pte p i &&& pteOutputAddrMask) (o % span ps (n + 1)) := by
    intro o hoi
    rw [walk_eq, hoi, walkEntry_table hv]
  refine ⟨s', ret, hmap, fun hret => ?_, fun hret => ?_⟩
  · obtain ⟨T', hframe', hr⟩ := hok hret
    obtain ⟨S', hown, hframe, hpte, hwalk⟩ := hup s' T' hr.owns hframe'
    have hlow : ∀ o, i * span ps (n + 1) + lo ≤ o → o < i * span ps (n + 1) + (lo + size) →
        o < K * span ps (n + 1) := by
      intro o hl hh
      rw [← Nat.div_lt_iff_lt_mul hB, ((mem_entry hB hfit).1 ⟨hl, hh⟩).1]
      exact hi
    refine ⟨S', hframe, hown, fun o hl hh => ?_, fun o hl hh k v a hw o' hd => ?_,
      fun o hl hh => ?_, fun o ho hno => ?_⟩
    · obtain ⟨hoi, hl', hh'⟩ := (mem_entry hB hfit).1 ⟨hl, hh⟩
      rw [hwo o hoi]
      exact hr.free _ hl' hh'
    · obtain ⟨hoi, hl', hh'⟩ := (mem_entry hB hfit).1 ⟨hl, hh⟩
      rw [hwalk o (hlow o hl hh), if_pos hoi] at hw
      have hk : k ≤ indexShift ps (n + 1) :=
        (walk_leaf_shift hw).trans (by rw [indexShift_succ]; omega)
      have hoi' : o' / span ps (n + 1) = i := (div_span_eq hk hd).trans hoi
      have := hr.whole _ hl' hh' k v a hw _ (mod_span_div hk hd)
      exact (mem_entry hB hfit).2 ⟨hoi', this⟩
    · obtain ⟨hoi, hl', hh'⟩ := (mem_entry hB hfit).1 ⟨hl, hh⟩
      rw [hwalk o (hlow o hl hh), if_pos hoi]
      have hmaps := hr.maps _ hl' hh'
      have hoff : o - (i * span ps (n + 1) + lo) = o % span ps (n + 1) - lo := by
        have hdm := Nat.div_add_mod o (span ps (n + 1))
        rw [hoi, mul_comm] at hdm
        omega
      rw [hoff]
      exact hmaps
    · rw [hwalk o ho]
      split
      · rename_i hoi
        rw [hwo o hoi]
        refine hr.others _ (hmod o) fun hin => hno ?_
        exact (mem_entry hB hfit).2 ⟨hoi, hin⟩
      · rfl
  · obtain ⟨T', hown', hframe', hsame⟩ := herr hret
    obtain ⟨S', hown, hframe, hpte, hwalk⟩ := hup s' T' hown' hframe'
    refine ⟨S', hown, hframe, fun o ho => ?_⟩
    rw [hwalk o ho]
    split
    · rename_i hoi
      rw [hwo o hoi, hsame _ (hmod o)]
    · rfl

/-- A mapping after a step that leaves every translation as it was. -/
theorem Mapped.after (hframe : Frame s s₁ S S₁)
    (hwalk : ∀ o < K * span ps n, walk ps s₁.pte n p o = walk ps s.pte n p o)
    (hK : hi ≤ K * span ps n) (h : Mapped ps attrs s₁ s' n K p S₁ lo hi paddr) :
    Mapped ps attrs s s' n K p S lo hi paddr := by
  obtain ⟨S', hframe', h⟩ := h
  refine ⟨S', hframe.trans hframe', h.owns, fun o hl hh => ?_, h.whole, h.maps, fun o ho hno => ?_⟩
  · rw [← hwalk o (by omega)]
    exact h.free o hl hh
  · rw [h.others o ho hno, hwalk o ho]

theorem Unchanged.after (hframe : Frame s s₁ S S₁)
    (hwalk : ∀ o < K * span ps n, walk ps s₁.pte n p o = walk ps s.pte n p o)
    (h : Unchanged ps s₁ s' n K p S₁) : Unchanged ps s s' n K p S := by
  obtain ⟨S', hown, hframe', hwalk'⟩ := h
  exact ⟨S', hown, hframe.trans hframe', fun o ho => (hwalk' o ho).trans (hwalk o ho)⟩

/-- What the body of the loop does. -/
def MapEntrySpec (ps attrs n K p : ℕ)
    (entry : Tables → ℕ → ℕ → ℕ → ℕ → ℕ → Option (Tables × Bool)) : Prop :=
  ∀ (s : Tables) (S : Set ℕ) (lo paddr size : ℕ), Owns ps s n K p S → lo / span ps n < K →
    0 < size → lo % span ps n + size ≤ span ps n → paddr + size ≤ 2 ^ 48 →
    2 ^ ps ∣ lo → 2 ^ ps ∣ paddr → 2 ^ ps ∣ size →
    ∃ s' ok, entry s lo paddr (lo / span ps n) (lo % span ps n) size = some (s', ok) ∧
      (ok = true → Mapped ps attrs s s' n K p S lo (lo + size) paddr) ∧
      (ok = false → Unchanged ps s s' n K p S)

theorem dvd_span (ps n : ℕ) : 2 ^ ps ∣ span ps n := pow_dvd_pow 2 (by simp [indexShift])

/-- A leaf for the whole span of an entry. -/
theorem putPte_spec (h : Owns ps s n K p S) (hattrs : IsAttrs attrs) (hps : 12 ≤ ps)
    {lo size t : ℕ} (hi : lo / span ps n < K) (hle : paddr + size ≤ 2 ^ 48)
    (hpaddr : 2 ^ ps ∣ paddr) (hneed : ¬ NeedsTable (indexShift ps n) lo paddr size)
    (ht : t = if n = 0 then ptePage else pteBlock) :
    ((putPte s p (lo / span ps n) (paddr ||| attrs ||| t)).2 = true →
      Mapped ps attrs s (putPte s p (lo / span ps n) (paddr ||| attrs ||| t)).1 n K p S lo
        (lo + size) paddr) ∧
    ((putPte s p (lo / span ps n) (paddr ||| attrs ||| t)).2 = false →
      Unchanged ps s (putPte s p (lo / span ps n) (paddr ||| attrs ||| t)).1 n K p S) := by
  simp only [NeedsTable, not_or, not_not] at hneed
  obtain ⟨halign, rfl, -⟩ := hneed
  rw [or_and_mask, ← span] at halign
  have hlo : lo / span ps n * span ps n = lo := Nat.div_mul_cancel (Nat.dvd_of_mod_eq_zero halign.1)
  have haddr : paddr &&& pteOutputAddrMask = paddr := by
    have hpos := span_pos ps n
    refine and_outputAddrMask ((pow_dvd_pow 2 hps).trans hpaddr) ?_
    rw [← span] at hle
    omega
  unfold putPte
  split
  · exact ⟨fun hf => (Bool.false_ne_true hf).elim, fun _ => unchanged_refl h⟩
  · rename_i hz
    refine ⟨fun _ => ?_, fun hf => by cases hf⟩
    have hput := h.putLeaf hi (not_not.1 hz) haddr hattrs ht
    rw [hlo] at hput
    exact hput

/-- The body of the loop, given the level below. -/
theorem mapEntry_spec (hattrs : IsAttrs attrs) (hps : 12 ≤ ps) (hps' : ps ≤ 16)
    (hbelow : ∀ k, n = k + 1 → MapPtSpec ps attrs k (2 ^ (ps - 3))) :
    MapEntrySpec ps attrs n K p (mapEntry ps attrs n p) := by
  intro s S lo paddr size h hi hpos hfit hle hlo hpaddr hsize
  have hB := span_pos ps n
  cases n with
  | zero =>
    -- a chunk of the last level is one page
    have hspan : span ps 0 = 2 ^ ps := by simp [span, indexShift]
    have hmod : lo % span ps 0 = 0 := by rw [hspan, Nat.mod_eq_zero_of_dvd hlo]
    have hfull : size = span ps 0 :=
      Nat.le_antisymm (by omega) (hspan ▸ Nat.le_of_dvd hpos hsize)
    have hneed : ¬ NeedsTable (indexShift ps 0) lo paddr size := by
      simp only [NeedsTable, not_or, not_not]
      refine ⟨(or_and_mask _ _ _).2 ⟨hmod, ?_⟩, hfull, ?_⟩
      · rw [← span, hspan, Nat.mod_eq_zero_of_dvd hpaddr]
      · simp only [blockMaxShift, indexShift]
        omega
    unfold mapEntry
    rw [if_neg hneed]
    obtain ⟨hok, herr⟩ := putPte_spec h hattrs hps hi hle hpaddr hneed rfl
    exact ⟨_, _, rfl, hok, herr⟩
  | succ n =>
    unfold mapEntry
    by_cases hneed : NeedsTable (indexShift ps (n + 1)) lo paddr size
    · rw [if_pos hneed]
      obtain ⟨s₁, r, hget, ⟨S₁, hown₁, hframe₁, hwalk₁⟩, hr⟩ := getPageTable_spec h hi
      rw [hget]
      cases r with
      | none =>
        exact ⟨s₁, false, rfl, fun hf => (Bool.false_ne_true hf).elim,
          fun _ => ⟨S₁, hown₁, hframe₁, hwalk₁⟩⟩
      | some next =>
        obtain ⟨hv, rfl⟩ := hr next rfl
        obtain ⟨s', ret, hmap, hok, herr⟩ := mapBelow (hbelow n rfl) hown₁ hi hv hfit hle
        rw [arm64MmuMapPt] at hmap
        dsimp only
        rw [hmap]
        have hdm := Nat.div_add_mod lo (span ps (n + 1))
        rw [mul_comm] at hdm
        rw [← Nat.add_assoc, hdm] at hok
        have hend : lo + size ≤ K * span ps (n + 1) := by
          have hK : (lo / span ps (n + 1) + 1) * span ps (n + 1) ≤ K * span ps (n + 1) :=
            Nat.mul_le_mul_right _ hi
          rw [Nat.succ_mul] at hK
          omega
        refine ⟨s', decide (ret = .ok), rfl, fun h' => ?_, fun h' => ?_⟩
        · exact (hok (by simpa using h')).after hframe₁ hwalk₁ hend
        · exact (herr (by simpa using h')).after hframe₁ hwalk₁
    · rw [if_neg hneed]
      obtain ⟨hok, herr⟩ := putPte_spec h hattrs hps hi hle hpaddr hneed rfl
      exact ⟨_, _, rfl, hok, herr⟩

/-- The loop: it maps the range, or the part of it before an entry that fails. -/
theorem mapLoop_spec {entry : Tables → ℕ → ℕ → ℕ → ℕ → ℕ → Option (Tables × Bool)}
    (hentry : MapEntrySpec ps attrs n K p entry) (fuel : ℕ) (h : Owns ps s n K p S) {lo size : ℕ}
    (hfuel : size ≤ fuel) (hK : lo + size ≤ K * span ps n) (hle : paddr + size ≤ 2 ^ 48)
    (hlo : 2 ^ ps ∣ lo) (hpaddr : 2 ^ ps ∣ paddr) (hsize : 2 ^ ps ∣ size) :
    ∃ s' left, mapLoop entry (indexShift ps n) fuel s lo paddr size = some (s', left) ∧
      left ≤ size ∧ Mapped ps attrs s s' n K p S lo (lo + (size - left)) paddr := by
  have hB := span_pos ps n
  induction fuel generalizing s S lo paddr size with
  | zero =>
    obtain rfl : size = 0 := by omega
    exact ⟨s, 0, rfl, le_rfl, (unchanged_refl h).mapped lo paddr⟩
  | succ fuel ih =>
    unfold mapLoop
    split
    · rename_i hz
      subst hz
      exact ⟨s, 0, rfl, le_rfl, (unchanged_refl h).mapped lo paddr⟩
    · rename_i hpos
      dsimp only
      rw [and_span, shiftRight_indexShift, ← span]
      obtain ⟨-, hchunk, hfit, hend⟩ := chunk_facts lo hB (Nat.pos_of_ne_zero hpos)
      have hdvd : 2 ^ ps ∣ min size (span ps n - lo % span ps n) := by
        have hrem : 2 ^ ps ∣ span ps n - lo % span ps n :=
          Nat.dvd_sub (dvd_span ps n) ((Nat.dvd_mod_iff (dvd_span ps n)).2 hlo)
        rcases Nat.le_total size (span ps n - lo % span ps n) with hmin | hmin
        · rw [Nat.min_eq_left hmin]
          exact hsize
        · rw [Nat.min_eq_right hmin]
          exact hrem
      generalize hc : min size (span ps n - lo % span ps n) = chunk at hchunk hfit hend hdvd ⊢
      have hchunk_le : chunk ≤ size := by omega
      have hi : lo / span ps n < K := by
        rw [Nat.div_lt_iff_lt_mul hB]
        omega
      obtain ⟨s₁, ok, hrun, hok, herr⟩ :=
        hentry s S lo paddr chunk h hi hchunk hfit (by omega) hlo hpaddr hdvd
      rw [hrun]
      cases ok with
      | false =>
        refine ⟨s₁, size, rfl, le_rfl, ?_⟩
        rw [Nat.sub_self]
        exact (herr rfl).mapped lo paddr
      | true =>
        obtain ⟨S₁, hframe₁, hr⟩ := hok rfl
        have hp' : u64 (paddr + chunk) = paddr + chunk := Nat.mod_eq_of_lt (by omega)
        obtain ⟨s', left, hrest, hleft, hmapped⟩ := ih hr.owns
          (show size - chunk ≤ fuel by omega)
          (show lo + chunk + (size - chunk) ≤ K * span ps n by omega)
          (show paddr + chunk + (size - chunk) ≤ 2 ^ 48 by omega)
          (Nat.dvd_add hlo hdvd) (Nat.dvd_add hpaddr hdvd) (Nat.dvd_sub hsize hdvd)
        dsimp only
        rw [hp', hrest]
        refine ⟨s', left, rfl, by omega, ?_⟩
        have hsum : lo + (size - left) = lo + chunk + (size - chunk - left) := by omega
        rw [hsum]
        exact hmapped.trans hframe₁ hr rfl (by omega) (by omega)

/-- `arm64_mmu_map_pt`, given the body of its loop. -/
theorem mapTable_spec (hentry : ∀ p, MapEntrySpec ps attrs n K p (mapEntry ps attrs n p)) :
    MapPtSpec ps attrs n K := by
  intro s p S lo paddr size h hK hle
  unfold arm64MmuMapPt mapTable
  split
  · exact ⟨s, _, rfl, fun hr => by simp at hr, fun _ => unchanged_refl h⟩
  · rename_i halign
    rw [not_not, or_and_mask, Nat.or_mod_two_pow, Nat.or_eq_zero_iff] at halign
    obtain ⟨⟨hlo, hpaddr⟩, hsize⟩ := halign
    obtain ⟨s₁, left, hloop, hleft, S₁, hframe₁, hr⟩ := mapLoop_spec (hentry p) size h le_rfl hK hle
      (Nat.dvd_of_mod_eq_zero hlo) (Nat.dvd_of_mod_eq_zero hpaddr) (Nat.dvd_of_mod_eq_zero hsize)
    rw [hloop]
    dsimp only
    split
    · rename_i hz
      subst hz
      exact ⟨s₁, .ok, rfl, fun _ => ⟨S₁, hframe₁, hr⟩, fun hne => absurd rfl hne⟩
    · -- what was mapped before the entry that failed was free, and is cleared again
      refine ⟨_, _, rfl, fun hr => by simp at hr, fun _ => ?_⟩
      obtain ⟨S', hown, hframe', hwalk⟩ := unmapPt_cleared hr.owns (by omega) hr.whole
      refine ⟨S', hown, hframe₁.trans hframe', fun o ho => ?_⟩
      rw [hwalk o ho]
      split
      · rename_i hin
        exact (hr.free o hin.1 hin.2).symm
      · rename_i hin
        exact hr.others o ho hin

/-- **`arm64_mmu_map_pt`** maps its range or leaves every translation as it was. -/
theorem mapPt_spec (hattrs : IsAttrs attrs) (hps : 12 ≤ ps) (hps' : ps ≤ 16) (n K : ℕ) :
    MapPtSpec ps attrs n K := by
  induction n generalizing K with
  | zero => exact mapTable_spec fun p => mapEntry_spec hattrs hps hps' fun k hk => by omega
  | succ n ih =>
    refine mapTable_spec fun p => mapEntry_spec hattrs hps hps' fun k hk => ?_
    obtain rfl : n = k := by omega
    exact ih _

end Map

end Arm64
end LittleKernel
