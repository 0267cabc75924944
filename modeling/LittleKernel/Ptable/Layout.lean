/-
# Where partitions lie

`ptable_allocate` looks for room in each gap between the entries, and in each erase
region of the device: it intersects the two, rounds the start up and the end down to
the erase unit, and the length up.  `adjustRequest_ok` and `adjustRequest_error` say
that this finds a place exactly when there is one, `allocateLoop_ok` and
`allocateLoop_error` that the walk over the gaps misses none, and `ptable_layout` that
the entries of every table are laid out as they should be after any run of calls,
whatever the heap and the device answer.
-/

import LittleKernel.Ptable.Faults

namespace LittleKernel
namespace Ptable

open Bytes Memory Word

/-! ### Rounding up -/

theorem alignUp_dvd (x k : ℕ) : 2 ^ k ∣ alignUp x k := Dvd.intro_left _ rfl

/-- The mask addition does not wrap: the next multiple of the power of two. -/
theorem alignUp_eq {x k : ℕ} (h : x + 2 ^ k ≤ 2 ^ 64) :
    alignUp x k = (x + (2 ^ k - 1)) / 2 ^ k * 2 ^ k := by
  have := Nat.two_pow_pos k
  rw [alignUp, u64_of_lt (by omega)]

theorem le_alignUp {x k : ℕ} (h : x + 2 ^ k ≤ 2 ^ 64) : x ≤ alignUp x k := by
  have hk := Nat.two_pow_pos k
  rw [alignUp_eq h]
  have := Nat.div_add_mod (x + (2 ^ k - 1)) (2 ^ k)
  have := Nat.mod_lt (x + (2 ^ k - 1)) hk
  rw [Nat.mul_comm]
  omega

theorem alignUp_le {x y k : ℕ} (h : x + 2 ^ k ≤ 2 ^ 64) (hy : 2 ^ k ∣ y) (hxy : x ≤ y) :
    alignUp x k ≤ y := by
  have hk := Nat.two_pow_pos k
  obtain ⟨q, rfl⟩ := hy
  rw [alignUp_eq h, Nat.mul_comm (2 ^ k) q]
  refine Nat.mul_le_mul_right _ ?_
  rw [← Nat.lt_succ_iff, Nat.div_lt_iff_lt_mul hk, Nat.succ_mul, Nat.mul_comm q]
  omega

/-- The mask addition wraps: nothing is left. -/
theorem alignUp_wrap {x k : ℕ} (hx : x < 2 ^ 64) (hk : k ≤ 64) (h : 2 ^ 64 < x + 2 ^ k) :
    alignUp x k = 0 := by
  have hle : 2 ^ k ≤ 2 ^ 64 := Nat.pow_le_pow_right (by decide) hk
  have hu : u64 (x + (2 ^ k - 1)) = x + (2 ^ k - 1) - 2 ^ 64 := by
    unfold u64
    omega
  rw [alignUp, hu, Nat.div_eq_of_lt (by omega), Nat.zero_mul]

/-! ### Devices -/

/-- Erase regions as `bio_initialize_bdev` asserts them, in ascending order and without
overlap, with numbers that an `off_t` and a shift can hold. -/
structure GeoOk (geos : List Geo) : Prop where
  bound : ∀ g ∈ geos, g.start + g.size < 2 ^ 63 ∧ g.eraseShift < 64
  apart : geos.Pairwise fun g g' => g.start + g.size ≤ g'.start

variable (d : Device)

/-- A registered device. -/
structure DevOk (b : Dev) : Prop where
  blockCount : b.blockCount d < 2 ^ 32
  geometry : GeoOk (b.geometry d)

variable {d} {b : Dev}

theorem Device.blockSize_le (d : Device) : d.blockSize ≤ 2 ^ 31 :=
  Nat.pow_le_pow_right (by norm_num) (by have := d.blockShift_lt; omega)

theorem mul_blockSize_lt {n : ℕ} (hn : n < 2 ^ 32) : n * d.blockSize < 2 ^ 63 := by
  calc n * d.blockSize ≤ n * 2 ^ 31 := Nat.mul_le_mul_left _ d.blockSize_le
    _ < 2 ^ 63 := by omega

theorem DevOk.totalSize_lt (hb : DevOk d b) : b.totalSize d < 2 ^ 63 :=
  mul_blockSize_lt hb.blockCount

/-- The range lies in the erase region. -/
def Contains (g : Geo) (o L : ℕ) : Prop := g.start ≤ o ∧ o + L ≤ g.start + g.size

/-- The range lies in an erase region, if the device has any, and on its erase units. -/
def OnUnits (geos : List Geo) (o L : ℕ) : Prop :=
  geos ≠ [] → ∃ g ∈ geos, Contains g o L ∧ 2 ^ g.eraseShift ∣ o ∧ 2 ^ g.eraseShift ∣ L

variable {o L : ℕ}

/-- At most one erase region contains a range. -/
theorem GeoOk.contains_unique {geos : List Geo} (h : GeoOk geos) {g g' : Geo}
    (hg : g ∈ geos) (hg' : g' ∈ geos) (hL : 0 < L) (hc : Contains g o L)
    (hc' : Contains g' o L) : g' = g := by
  have hap := h.apart
  clear h
  obtain ⟨h₁, h₂⟩ := hc
  obtain ⟨h₁', h₂'⟩ := hc'
  induction geos with
  | nil => cases hg
  | cons x l ih =>
    obtain ⟨hx, hl⟩ := List.pairwise_cons.1 hap
    rcases List.mem_cons.1 hg with rfl | hgl
    · rcases List.mem_cons.1 hg' with rfl | hgl'
      · rfl
      · have := hx g' hgl'
        omega
    · rcases List.mem_cons.1 hg' with rfl | hgl'
      · have := hx g hgl
        omega
      · exact ih hgl hgl' hl

/-! ### One erase region -/

theorem bioDoesOverlap_of_lt {s₁ l₁ s₂ l₂ o L : ℕ} (h₁ : s₁ + l₁ < 2 ^ 64)
    (h₂ : s₂ + l₂ < 2 ^ 64) (hL : 0 < L) (ho₁ : s₁ ≤ o) (he₁ : o + L ≤ s₁ + l₁) (ho₂ : s₂ ≤ o)
    (he₂ : o + L ≤ s₂ + l₂) : bioDoesOverlap s₁ l₁ s₂ l₂ = true := by
  simp only [bioDoesOverlap, u64_of_lt h₁, u64_of_lt h₂, Bool.or_eq_true, Bool.and_eq_true,
    decide_eq_true_eq]
  omega

/-- The numbers of `adjustInRegion`, none of which wraps. -/
structure Rounded (rs rl len : ℕ) (g : Geo) (rstart rend L : ℕ) : Prop where
  start_dvd : 2 ^ g.eraseShift ∣ rstart
  end_dvd : 2 ^ g.eraseShift ∣ rend
  len_dvd : 2 ^ g.eraseShift ∣ L
  start_ge : rs ≤ rstart ∧ g.start ≤ rstart
  start_least : ∀ o, 2 ^ g.eraseShift ∣ o → rs ≤ o → g.start ≤ o → rstart ≤ o
  end_le : rend ≤ rs + rl ∧ rend ≤ g.start + g.size
  end_greatest : ∀ e, 2 ^ g.eraseShift ∣ e → e ≤ rs + rl → e ≤ g.start + g.size → e ≤ rend
  len_ge : len ≤ L
  len_least : ∀ n, 2 ^ g.eraseShift ∣ n → len ≤ n → L ≤ n
  len_lt : L < 2 ^ 64

variable {g : Geo}

theorem rounded {rs rl len : ℕ} (hreg : rs + rl < 2 ^ 63)
    (hg : g.start + g.size < 2 ^ 63 ∧ g.eraseShift < 64) (hlen : len ≤ rl) :
    Rounded rs rl len g (alignUp (max rs g.start) g.eraseShift)
      (min (u64 (rs + rl)) (u64 (g.start + g.size)) / 2 ^ g.eraseShift * 2 ^ g.eraseShift)
      (alignUp len g.eraseShift) := by
  obtain ⟨hg, hk⟩ := hg
  have h2 : 2 ^ g.eraseShift ≤ 2 ^ 63 := Nat.pow_le_pow_right (by decide) (by omega)
  have hmax : max rs g.start + 2 ^ g.eraseShift ≤ 2 ^ 64 := by omega
  have hlen' : len + 2 ^ g.eraseShift ≤ 2 ^ 64 := by omega
  have hge := le_alignUp hmax
  rw [u64_of_lt (by omega : rs + rl < 2 ^ 64), u64_of_lt (by omega : g.start + g.size < 2 ^ 64)]
  have hdiv := Nat.div_mul_le_self (min (rs + rl) (g.start + g.size)) (2 ^ g.eraseShift)
  refine ⟨alignUp_dvd _ _, Dvd.intro_left _ rfl, alignUp_dvd _ _, by omega, ?_, by omega, ?_,
    le_alignUp hlen', fun n hn h => alignUp_le hlen' hn h, ?_⟩
  · exact fun o ho h₁ h₂ => alignUp_le hmax ho (by omega)
  · rintro e ⟨q, rfl⟩ h₁ h₂
    rw [Nat.mul_comm]
    refine Nat.mul_le_mul_right _ ((Nat.le_div_iff_mul_le (Nat.two_pow_pos _)).2 ?_)
    rw [Nat.mul_comm]
    omega
  · have : alignUp len g.eraseShift ≤ len + (2 ^ g.eraseShift - 1) := by
      rw [alignUp_eq hlen']
      exact Nat.div_mul_le_self _ _
    have := Nat.two_pow_pos g.eraseShift
    omega

/-- A length that was rounded up, perhaps more than once. -/
def Grown (len L : ℕ) : Prop := len ≤ L ∧ (len = 0 → L = 0)

theorem Grown.refl (len : ℕ) : Grown len len := ⟨le_rfl, id⟩

theorem Grown.trans {l m n : ℕ} (h : Grown l m) (h' : Grown m n) : Grown l n :=
  ⟨h.1.trans h'.1, fun h0 => h'.2 (h.2 h0)⟩

theorem Rounded.grown {rs rl len rstart rend L : ℕ}
    (h : Rounded rs rl len g rstart rend L) : Grown len L :=
  ⟨h.len_ge, fun h0 => Nat.le_zero.1 (h.len_least 0 (dvd_zero _) h0.le)⟩

variable {l : List Entry} {ae : Bool}

/-- A place found in an erase region is in the gap, in the region and on its units. -/
theorem adjustInRegion_some {rs rl len o L : ℕ} (hreg : rs + rl < 2 ^ 63)
    (hg : g.start + g.size < 2 ^ 63 ∧ g.eraseShift < 64) (hlen : len ≤ rl)
    (h : adjustInRegion rs rl len ae g = some (o, L)) :
    Grown len L ∧ rs ≤ o ∧ o + L ≤ rs + rl ∧ Contains g o L ∧
      2 ^ g.eraseShift ∣ o ∧ 2 ^ g.eraseShift ∣ L := by
  have hr := rounded hreg hg hlen
  unfold adjustInRegion at h
  dsimp only at h
  generalize alignUp (max rs g.start) g.eraseShift = rstart at hr h
  generalize min (u64 (rs + rl)) (u64 (g.start + g.size)) / 2 ^ g.eraseShift
    * 2 ^ g.eraseShift = rend at hr h
  generalize alignUp len g.eraseShift = L' at hr h
  have h₁ := hr.start_ge
  have h₂ := hr.end_le
  have hL := hr.len_lt
  split_ifs at h with hov hfit hae
  all_goals
    have hend : rstart + L' ≤ rend := by
      unfold u64 at hfit
      omega
    cases h
    unfold Contains
  · exact ⟨hr.grown, by omega, by omega, by omega, Nat.dvd_sub hr.end_dvd hr.len_dvd, hr.len_dvd⟩
  · exact ⟨hr.grown, by omega, by omega, by omega, hr.start_dvd, hr.len_dvd⟩

/-- An erase region in which nothing is found has no place in the gap. -/
theorem adjustInRegion_none {rs rl len o L : ℕ} (hreg : rs + rl < 2 ^ 63)
    (hg : g.start + g.size < 2 ^ 63 ∧ g.eraseShift < 64) (hlen : len ≤ L) (hL : 0 < L)
    (ho : rs ≤ o) (he : o + L ≤ rs + rl) (hc : Contains g o L) (ho2 : 2 ^ g.eraseShift ∣ o)
    (hL2 : 2 ^ g.eraseShift ∣ L) : adjustInRegion rs rl len ae g ≠ none := by
  have hr := rounded hreg hg (by omega : len ≤ rl)
  obtain ⟨hc₁, hc₂⟩ := hc
  have hov := bioDoesOverlap_of_lt (by omega) (by omega) hL ho he hc₁ hc₂
  have hs := hr.start_least o ho2 ho hc₁
  have hl := hr.len_least L hL2 hlen
  have hend := hr.end_greatest (o + L) (Nat.dvd_add ho2 hL2) he hc₂
  unfold adjustInRegion
  rw [hov]
  dsimp only
  generalize alignUp (max rs g.start) g.eraseShift = rstart at *
  generalize min (u64 (rs + rl)) (u64 (g.start + g.size)) / 2 ^ g.eraseShift
    * 2 ^ g.eraseShift = rend at *
  generalize alignUp len g.eraseShift = L' at *
  rw [if_neg (by simp), if_neg (by unfold u64; omega)]
  simp

/-! ### One gap -/

theorem adjustRequest_ok {rs rl len o L : ℕ} (hb : DevOk d b)
    (hreg : rs + rl < 2 ^ 63) (h : adjustRequest d b rs rl len ae = .ok (o, L)) :
    Grown len L ∧ rs ≤ o ∧ o + L ≤ rs + rl ∧ OnUnits (b.geometry d) o L := by
  unfold adjustRequest at h
  by_cases hlen : len > rl
  · simp [hlen] at h
  rw [if_neg hlen] at h
  by_cases hgeo : b.geometry d = []
  · rw [if_pos hgeo] at h
    obtain ⟨ho, rfl⟩ := Prod.mk.inj (Except.ok.inj h)
    rw [u64_of_lt (by omega), sub64_of_le (by omega) (by omega)] at ho
    refine ⟨.refl _, ?_, ?_, fun hne => absurd hgeo hne⟩ <;> split_ifs at ho <;> omega
  · rw [if_neg hgeo] at h
    dsimp only at h
    split at h
    · rename_i r hr
      obtain rfl := Except.ok.inj h
      obtain ⟨g, hg, hr⟩ := List.exists_of_findSome?_eq_some hr
      have hg : g ∈ b.geometry d := by
        split_ifs at hg
        · exact List.mem_reverse.1 hg
        · exact hg
      have := adjustInRegion_some hreg (hb.geometry.bound g hg) (by omega) hr
      exact ⟨this.1, this.2.1, this.2.2.1, fun _ => ⟨g, hg, this.2.2.2⟩⟩
    · cases h

/-- A request is refused only where there is no place for it. -/
theorem adjustRequest_error {rs rl len o L : ℕ} {err : Err} (hb : DevOk d b)
    (hreg : rs + rl < 2 ^ 63) (h : adjustRequest d b rs rl len ae = .error err) (hlen : len ≤ L)
    (hL : 0 < L) (ho : rs ≤ o) (he : o + L ≤ rs + rl) : ¬ OnUnits (b.geometry d) o L := by
  intro hu
  unfold adjustRequest at h
  rw [if_neg (by omega)] at h
  by_cases hgeo : b.geometry d = []
  · simp [hgeo] at h
  · rw [if_neg hgeo] at h
    obtain ⟨g, hg, hc, ho2, hL2⟩ := hu hgeo
    have hne : adjustInRegion rs rl len ae g ≠ none :=
      adjustInRegion_none hreg (hb.geometry.bound g hg) hlen hL ho he hc ho2 hL2
    dsimp only at h
    split at h
    · cases h
    · rename_i hnone
      refine hne (List.findSome?_eq_none_iff.1 hnone g ?_)
      split_ifs
      · exact List.mem_reverse.2 hg
      · exact hg

/-! ### All gaps -/

variable (d b) in
/-- The range lies behind `lo` on the device, on its erase units and beside every entry. -/
structure Room (lo : ℕ) (l : List Entry) (o L : ℕ) : Prop where
  lo_le : lo ≤ o
  fits : o + L ≤ b.totalSize d
  onUnits : OnUnits (b.geometry d) o L
  free : ∀ e ∈ l, o + L ≤ e.offset ∨ e.offset + e.length ≤ o

/-- Entries one behind the other, from `lo` to the end of the device. -/
structure Chain (size lo : ℕ) (l : List Entry) : Prop where
  sorted : l.Pairwise fun e f => e.offset + e.length ≤ f.offset
  lo_le : ∀ e ∈ l, lo ≤ e.offset
  fits : ∀ e ∈ l, e.offset + e.length ≤ size
  lo_le_size : lo ≤ size

variable {e : Entry}

theorem Chain.tail {size lo : ℕ} (h : Chain size lo (e :: l)) :
    Chain size (e.offset + e.length) l where
  sorted := (List.pairwise_cons.1 h.sorted).2
  lo_le := (List.pairwise_cons.1 h.sorted).1
  fits f hf := h.fits f (List.mem_cons_of_mem _ hf)
  lo_le_size := h.fits e List.mem_cons_self

theorem Room.cons {lo : ℕ} (hlo : lo ≤ e.offset)
    (h : Room d b (e.offset + e.length) l o L) : Room d b lo (e :: l) o L where
  lo_le := by have := h.lo_le; omega
  fits := h.fits
  onUnits := h.onUnits
  free f hf := by
    rcases List.mem_cons.1 hf with rfl | hf
    · exact .inr h.lo_le
    · exact h.free f hf

/-- A place in the gap before an entry. -/
theorem Chain.room {lo o L : ℕ} (h : Chain (b.totalSize d) lo (e :: l))
    (ho : lo ≤ o) (he : o + L ≤ e.offset) (hu : OnUnits (b.geometry d) o L) :
    Room d b lo (e :: l) o L where
  lo_le := ho
  fits := by have := h.fits e List.mem_cons_self; omega
  onUnits := hu
  free f hf := by
    rcases List.mem_cons.1 hf with rfl | hf
    · exact .inl he
    · have := h.tail.lo_le f hf
      exact .inl (by omega)

/-- What `allocateLoop` finds, or what it was given, is a place that is long enough. -/
theorem allocateLoop_ok (hb : DevOk d b) (l : List Entry) {lo len o L : ℕ}
    {best : Option ℕ} (hl : Chain (b.totalSize d) lo l)
    (h : allocateLoop d b ae l lo best len = (some o, L)) :
    (best = some o ∧ L = len) ∨ (Grown len L ∧ Room d b lo l o L) := by
  have htot := hb.totalSize_lt
  have hlo := hl.lo_le_size
  induction l generalizing lo len best with
  | nil =>
    rw [allocateLoop, sub64_of_le (by omega) hlo] at h
    by_cases hz : b.totalSize d - lo = 0
    · rw [if_pos hz] at h
      exact .inl ⟨(Prod.mk.inj h).1, (Prod.mk.inj h).2.symm⟩
    rw [if_neg hz] at h
    split at h
    · rename_i o' L' hadj
      obtain ⟨ho, rfl⟩ := Prod.mk.inj h
      cases ho
      obtain ⟨h₁, h₂, h₃, h₄⟩ := adjustRequest_ok hb (by omega) hadj
      exact .inr ⟨h₁, h₂, by omega, h₄, by simp⟩
    · exact .inl ⟨(Prod.mk.inj h).1, (Prod.mk.inj h).2.symm⟩
  | cons e l ih =>
    have he := hl.lo_le e List.mem_cons_self
    have hfit := hl.fits e List.mem_cons_self
    -- the gaps behind the entry
    have hrest : ∀ {best : Option ℕ} {len' : ℕ},
        allocateLoop d b ae l (e.offset + e.length) best len' = (some o, L) →
        (best = some o ∧ L = len') ∨ (Grown len' L ∧ Room d b lo (e :: l) o L) :=
      fun h' => (ih hl.tail h' hl.tail.lo_le_size).imp_right fun h'' => ⟨h''.1, h''.2.cons he⟩
    rw [allocateLoop, sub64_of_le (by omega) he, u64_of_lt (by omega)] at h
    by_cases hz : e.offset - lo = 0
    · rw [if_pos hz] at h
      exact hrest h
    rw [if_neg hz] at h
    split at h
    · rename_i o' L' hadj
      obtain ⟨h₁, h₂, h₃, h₄⟩ := adjustRequest_ok hb (by omega) hadj
      have hroom : Room d b lo (e :: l) o' L' := hl.room h₂ (by omega) h₄
      split_ifs at h
      · rcases hrest h with ⟨ho, rfl⟩ | ⟨hle, hr⟩
        · cases ho
          exact .inr ⟨h₁, hroom⟩
        · exact .inr ⟨h₁.trans hle, hr⟩
      · obtain ⟨ho, rfl⟩ := Prod.mk.inj h
        cases ho
        exact .inr ⟨h₁, hroom⟩
    · exact hrest h

/-- Allocating from the end keeps what it has found. -/
theorem allocateLoop_some (l : List Entry) {lo len o : ℕ} :
    (allocateLoop d b ae l lo (some o) len).1 ≠ none := by
  induction l generalizing lo len o with
  | nil =>
    rw [allocateLoop]
    split_ifs
    · simp
    · split <;> simp
  | cons e l ih =>
    rw [allocateLoop]
    by_cases hz : sub64 e.offset lo = 0
    · rw [if_pos hz]
      exact ih
    rw [if_neg hz]
    split
    · split_ifs
      · exact ih
      · simp
    · exact ih

/-- When nothing is found there is no place. -/
theorem allocateLoop_none (hb : DevOk d b) (l : List Entry) {lo len n : ℕ}
    {best : Option ℕ} (hl : Chain (b.totalSize d) lo l)
    (h : allocateLoop d b ae l lo best len = (none, n)) (hlen : len ≤ L) (hL : 0 < L) :
    ¬ Room d b lo l o L := by
  have htot := hb.totalSize_lt
  have hlo := hl.lo_le_size
  intro hr
  induction l generalizing lo len best with
  | nil =>
    have h₁ := hr.lo_le
    have h₂ := hr.fits
    rw [allocateLoop, sub64_of_le (by omega) hlo, if_neg (by omega)] at h
    split at h
    · cases h
    · rename_i hadj
      exact adjustRequest_error hb (by omega) hadj hlen hL h₁ (by omega) hr.onUnits
  | cons e l ih =>
    have he := hl.lo_le e List.mem_cons_self
    have hfit := hl.fits e List.mem_cons_self
    -- a place behind the entry is one in the gaps that are still to come
    have hrest : ∀ {best : Option ℕ} {len' : ℕ}, len' ≤ L → e.offset + e.length ≤ o →
        allocateLoop d b ae l (e.offset + e.length) best len' ≠ (none, n) :=
      fun hle ho h' => ih hl.tail h' hle hl.tail.lo_le_size
        ⟨ho, hr.fits, hr.onUnits, fun f hf => hr.free f (List.mem_cons_of_mem _ hf)⟩
    have hside := hr.free e List.mem_cons_self
    have hlo' := hr.lo_le
    rw [allocateLoop, sub64_of_le (by omega) he, u64_of_lt (by omega)] at h
    by_cases hz : e.offset - lo = 0
    · rw [if_pos hz] at h
      exact hrest hlen (by omega) h
    rw [if_neg hz] at h
    split at h
    · rename_i o' L' hadj
      split_ifs at h
      · exact allocateLoop_some l (congrArg Prod.fst h)
      · cases h
    · rename_i hadj
      rcases hside with hgap | hbehind
      · exact adjustRequest_error hb (by omega) hadj hlen hL hlo' (by omega) hr.onUnits
      · exact hrest hlen hbehind h

/-! ### Places for partitions -/

variable (d b) in
/-- A place for a partition beside the entries: not empty, in blocks, on the device, and
where the device has erase regions, in a single one of them and on its erase units. -/
structure Place (l : List Entry) (o L : ℕ) : Prop where
  pos : 0 < L
  blocks : d.blockSize ∣ o ∧ d.blockSize ∣ L
  fits : o + L ≤ b.totalSize d
  units : b.geometry d ≠ [] → ∃ g ∈ b.geometry d, Contains g o L ∧
    2 ^ g.eraseShift ∣ o ∧ 2 ^ g.eraseShift ∣ L ∧ ∀ g' ∈ b.geometry d, Contains g' o L → g' = g
  free : ∀ e ∈ l, o + L ≤ e.offset ∨ e.offset + e.length ≤ o

variable (d b) in
/-- A table that is laid out: sorted by offset, without overlap, every entry in a place
for a partition. -/
structure Laid (l : List Entry) : Prop where
  sorted : l.Pairwise fun e f => e.offset + e.length ≤ f.offset
  entries : ∀ e ∈ l, Place d b [] e.offset e.length

theorem laid_nil : Laid d b [] := ⟨.nil, by simp⟩

theorem Laid.chain (h : Laid d b l) : Chain (b.totalSize d) 0 l where
  sorted := h.sorted
  lo_le _ _ := Nat.zero_le _
  fits e he := (h.entries e he).fits
  lo_le_size := Nat.zero_le _

theorem Place.room (h : Place d b l o L) : Room d b 0 l o L where
  lo_le := Nat.zero_le _
  fits := h.fits
  onUnits hne := by
    obtain ⟨g, hg, hc, ho, hL, -⟩ := h.units hne
    exact ⟨g, hg, hc, ho, hL⟩
  free := h.free

theorem Room.place {lo o L : ℕ} (hb : DevOk d b) (h : Room d b lo l o L)
    (hL : 0 < L) (hbl : d.blockSize ∣ o ∧ d.blockSize ∣ L) : Place d b l o L where
  pos := hL
  blocks := hbl
  fits := h.fits
  units hne := by
    obtain ⟨g, hg, hc, ho, hL2⟩ := h.onUnits hne
    exact ⟨g, hg, hc, ho, hL2, fun g' hg' hc' => hb.geometry.contains_unique hg hg' hL hc hc'⟩
  free := h.free

theorem Place.nil (h : Place d b l o L) : Place d b [] o L :=
  ⟨h.pos, h.blocks, h.fits, h.units, by simp⟩

/-- A place found for a request: long enough for the request in whole blocks. -/
theorem ptableAllocate_ok {s : State} (hbdev : s.bdev = some b) (hb : DevOk d b)
    (hl : Laid d b s.list) {minLen o L : ℕ} (h : ptableAllocate d s minLen ae = .ok (o, L)) :
    Grown (alignUp minLen d.blockShift) L ∧ Room d b 0 s.list o L := by
  have htot := hb.totalSize_lt
  unfold ptableAllocate at h
  rw [hbdev] at h
  dsimp only at h
  by_cases hnil : s.list = []
  · rw [if_pos hnil] at h
    obtain ⟨h₁, h₂, h₃, h₄⟩ := adjustRequest_ok hb (by omega) h
    exact ⟨h₁, h₂, by omega, h₄, by simp [hnil]⟩
  · rw [if_neg hnil] at h
    split at h
    · rename_i o' L' hloop
      obtain ⟨rfl, rfl⟩ := Prod.mk.inj (Except.ok.inj h)
      exact (allocateLoop_ok hb s.list hl.chain hloop).resolve_left (by simp)
    · cases h

/-- A request is refused only when there is no place for it. -/
theorem ptableAllocate_error {s : State} (hbdev : s.bdev = some b) (hb : DevOk d b)
    (hl : Laid d b s.list) {minLen : ℕ} {err : Err}
    (h : ptableAllocate d s minLen ae = .error err) (hp : Place d b s.list o L) :
    L < minLen := by
  by_contra hlen
  have htot := hb.totalSize_lt
  have hfit := hp.fits
  have hpos := hp.pos
  have hbs : 2 ^ d.blockShift ≤ 2 ^ 31 := d.blockSize_le
  have hle : alignUp minLen d.blockShift ≤ L :=
    alignUp_le (by omega) hp.blocks.2 (by omega)
  unfold ptableAllocate at h
  rw [hbdev] at h
  dsimp only at h
  by_cases hnil : s.list = []
  · rw [if_pos hnil] at h
    exact adjustRequest_error hb (by omega) h hle hpos (Nat.zero_le _) (by omega) hp.room.onUnits
  · rw [if_neg hnil] at h
    split at h
    · cases h
    · rename_i n hloop
      exact allocateLoop_none hb s.list hl.chain hloop hle hpos hp.room

/-- `ptable_allocate_at` finds no other place than the one it is asked for. -/
theorem ptableAllocateAt_ok {s : State} (hbdev : s.bdev = some b) (hb : DevOk d b)
    (hnil : s.list = []) {offset len L : ℕ} (hlen : len < 2 ^ 32)
    (h : ptableAllocateAt d s offset len = .ok L) : offset < 2 ^ 63 ∧ Room d b 0 [] offset L := by
  have htot := hb.totalSize_lt
  have hbs : 2 ^ d.blockShift ≤ 2 ^ 31 := d.blockSize_le
  have hup : alignUp len d.blockShift < 2 ^ 33 := by
    rw [alignUp_eq (by omega)]
    exact (Nat.div_mul_le_self _ _).trans_lt (by omega)
  unfold ptableAllocateAt at h
  rw [hbdev] at h
  dsimp only at h
  generalize alignUp len d.blockShift = n at hup h
  by_cases hneg : offset ≥ 2 ^ 63
  · rw [if_pos hneg] at h
    cases h
  rw [if_neg hneg] at h
  by_cases hal : offset % d.blockSize ≠ 0
  · rw [if_pos hal] at h
    cases h
  rw [if_neg hal] at h
  cases hin : bioContainsRange 0 (b.totalSize d) offset n with
  | false => simp [hin] at h
  | true =>
    rw [hin, if_neg (by simp)] at h
    have hle : offset + n ≤ b.totalSize d := by
      simp only [bioContainsRange, Bool.and_eq_true, decide_eq_true_eq] at hin
      have := hin.2
      rw [u64_of_lt (by omega), u64_of_lt (by omega)] at this
      omega
    rw [sub64_of_le (by omega) (by omega)] at h
    split at h
    · cases h
    · rename_i newOffset L' hadj
      obtain ⟨-, h₂, h₃, h₄⟩ := adjustRequest_ok hb (by omega) hadj
      by_cases hne : newOffset ≠ offset
      · rw [if_pos hne] at h
        cases h
      rw [if_neg hne, if_neg (by simp [hnil])] at h
      obtain rfl := Except.ok.inj h
      obtain rfl := not_not.1 hne
      exact ⟨by omega, Nat.zero_le _, by omega, h₄, by simp⟩

/-! ### Publishing keeps the layout -/

/-- What the checks of `ptable_publish` say about an entry. -/
theorem publishCheck_none {s : State} (h : publishCheck d b s e = none) :
    (d.blockSize ∣ e.offset ∧ d.blockSize ∣ e.length) ∧ e.length ≠ 0 := by
  unfold publishCheck at h
  split_ifs at h with _ _ hal hz
  refine ⟨⟨Nat.dvd_of_mod_eq_zero (by omega), Nat.dvd_of_mod_eq_zero (by omega)⟩, fun h0 => ?_⟩
  rw [h0, Nat.add_zero, u64_of_lt e.offset_lt] at hz
  omega

/-- The geometry of a new subdevice. -/
theorem geoOk_subdeviceGeometry {parent : Dev} (hp : DevOk d parent) {start count : ℕ}
    {geo : Option Geo} (hcount : count < 2 ^ 32)
    (h : subdeviceGeometry d parent start count = .ok geo) : GeoOk geo.toList := by
  unfold subdeviceGeometry at h
  split at h
  · dsimp only at h
    split_ifs at h
    obtain rfl := Except.ok.inj h
    exact ⟨by simp, .nil⟩
  · rename_i last hlast
    dsimp only at h
    split_ifs at h
    obtain rfl := Except.ok.inj h
    refine ⟨fun g hg => ?_, by simp⟩
    obtain rfl : g = _ := by simpa using hg
    have hsize := mul_blockSize_lt (d := d) hcount
    rw [u64_of_lt (by omega)]
    dsimp only
    refine ⟨by omega, ?_⟩
    cases hf : (parent.geometry d).find? _ with
    | none => exact (hp.geometry.bound _ (List.mem_of_getLast? hlast)).2
    | some g => exact (hp.geometry.bound _ (List.mem_of_find?_eq_some hf)).2

/-- What publishing a subdevice registers. -/
theorem devOk_publishSubdevice {io : Answers} {bdevs bdevs' : List Dev} {parentDev subdev : CString}
    {start count : ℕ} (hb : ∀ x ∈ bdevs, DevOk d x) (hcount : count < 2 ^ 32)
    (h : bioPublishSubdeviceOn d io bdevs parentDev subdev start count = .ok bdevs') :
    ∀ x ∈ bdevs', DevOk d x := by
  unfold bioPublishSubdeviceOn at h
  split_ifs at h
  unfold bioPublishSubdevice at h
  split at h
  · cases h
  rename_i parent hparent
  split at h
  · cases h
  rename_i geo hgeo
  obtain rfl := Except.ok.inj h
  intro x hx
  rcases List.mem_append.1 hx with hx | hx
  · exact hb x hx
  · obtain rfl : x = _ := by simpa using hx
    have hp := hb parent (List.mem_of_find?_eq_some hparent)
    exact ⟨hcount, geoOk_subdeviceGeometry hp hcount hgeo⟩

/-- An entry put in its place keeps the table laid out. -/
theorem Laid.push (h : Laid d b l)
    (he : Place d b l e.offset e.length) : Laid d b (pushEntry e l) := by
  refine ⟨?_, fun x hx => ?_⟩
  · have hpos := he.pos
    have hfree := he.free
    have hlen : ∀ x ∈ l, 0 < x.length := fun x hx => (h.entries x hx).pos
    have hsorted := h.sorted
    clear h he
    induction l with
    | nil => exact List.pairwise_singleton _ _
    | cons x l ih =>
      obtain ⟨hx, hl⟩ := List.pairwise_cons.1 hsorted
      have hxe := hfree x List.mem_cons_self
      have hx0 := hlen x List.mem_cons_self
      rw [pushEntry]
      split_ifs with hlt
      · refine List.pairwise_cons.2 ⟨fun y hy => ?_, hsorted⟩
        rcases List.mem_cons.1 hy with rfl | hy
        · omega
        · have := hx y hy
          omega
      · refine List.pairwise_cons.2 ⟨fun y hy => ?_, ih
          (fun y hy => hfree y (List.mem_cons_of_mem _ hy)) (fun y hy =>
          hlen y (List.mem_cons_of_mem _ hy)) hl⟩
        rcases List.mem_cons.1 ((perm_pushEntry e l).mem_iff.1 hy) with rfl | hy
        · omega
        · exact hx y hy
  · rcases List.mem_cons.1 ((perm_pushEntry e l).mem_iff.1 hx) with rfl | hx
    · exact he.nil
    · exact h.entries x hx

theorem Laid.eraseP (h : Laid d b l) (p : Entry → Bool) :
    Laid d b (l.eraseP p) :=
  ⟨h.sorted.sublist List.eraseP_sublist,
    fun e he => h.entries e (List.mem_of_mem_eraseP he)⟩

/-! ### Runs -/

/-- Between two calls: every registered device is one, and the table is laid out on the
device it is for. -/
structure LayoutInv (d : Device) (s : State) : Prop where
  bdevs : ∀ x ∈ s.bdevs, DevOk d x
  unmounted : s.bdev = none → s.list = []
  mounted : ∀ b, s.bdev = some b → DevOk d b ∧ Laid d b s.list

theorem layoutInv_init (hd : GeoOk d.geometry) (disk : ℕ → UInt8) : LayoutInv d (.init disk) where
  bdevs x hx := by
    obtain rfl : x = .base := by simpa [State.init] using hx
    exact ⟨d.blockCount_lt, hd⟩
  unmounted _ := rfl
  mounted _ h := by simp [State.init] at h

theorem mem_of_mem_foldl_bioUnregister (es : List Entry) {bdevs : List Dev} {x : Dev}
    (h : x ∈ es.foldl (fun bdevs e => bioUnregister d bdevs e.cname) bdevs) : x ∈ bdevs := by
  induction es generalizing bdevs with
  | nil => exact h
  | cons e es ih => exact List.mem_of_mem_eraseP (ih h)

variable {s : State} {io : Answers} {crc32 : ℕ → List UInt8 → ℕ}

theorem LayoutInv.reset (h : LayoutInv d s) : LayoutInv d (ptableReset d s) where
  bdevs x hx := h.bdevs x (mem_of_mem_foldl_bioUnregister s.list hx)
  unmounted _ := rfl
  mounted b hb := by simp [ptableReset] at hb

theorem LayoutInv.resetOnError {r : State × Option Err} (h : LayoutInv d r.1) :
    LayoutInv d (resetOnError d r).1 := by
  unfold Ptable.resetOnError
  split_ifs
  · exact h.reset
  · exact h

theorem LayoutInv.write (h : LayoutInv d s) : LayoutInv d (ptableWriteOn d crc32 io s).1 := by
  obtain ⟨h₁, h₂, h₃⟩ := ptableWriteOn_frame (d := d) io s
  exact ⟨h₂ ▸ h.bdevs, by rw [h₁, h₃]; exact h.unmounted, by rw [h₁, h₃]; exact h.mounted⟩

/-- Publishing an entry where there is room for it. -/
theorem LayoutInv.publish (h : LayoutInv d s) (io : Answers) (hb : s.bdev = some b) {lo : ℕ}
    (hroom : Room d b lo s.list e.offset e.length) :
    LayoutInv d (ptablePublishOn d io s e).1 := by
  unfold ptablePublishOn
  rw [hb]
  dsimp only
  split
  · exact h
  rename_i hchk
  split_ifs
  · exact h
  split
  · exact ⟨fun x hx => h.bdevs x (List.mem_of_mem_eraseP hx), fun hn => by simp at hn, hb ▸ h.mounted⟩
  · rename_i bdevs hpub
    obtain ⟨hdev, hlaid⟩ := h.mounted b hb
    obtain ⟨hblocks, hlen⟩ := publishCheck_none hchk
    refine ⟨devOk_publishSubdevice h.bdevs (u32_lt _) hpub, fun hnone => ?_, fun b' hb' => ?_⟩
    · simp at hnone
    · obtain rfl : b = b' := Option.some.inj (hb ▸ hb')
      exact ⟨hdev, hlaid.push (hroom.place hdev (by omega) hblocks)⟩

/-- A published entry is in the list. -/
theorem ptablePublishOn_mem (io : Answers) (s : State) (h : (ptablePublishOn d io s e).2 = none) :
    e ∈ (ptablePublishOn d io s e).1.list ∧ e.length ≠ 0 := by
  unfold ptablePublishOn at h ⊢
  split at h
  · cases h
  split at h
  · cases h
  rename_i hchk
  split_ifs at h
  rw [if_neg ‹_›]
  split at h
  · cases h
  · exact ⟨(perm_pushEntry e s.list).mem_iff.2 List.mem_cons_self, (publishCheck_none hchk).2⟩

section

variable (h : LayoutInv d s)
include h

theorem LayoutInv.createDefault (bdevName : CString) (offset : ℕ) :
    LayoutInv d (ptableCreateDefaultOn d crc32 io s bdevName offset).1 := by
  have h0 := h.reset
  unfold ptableCreateDefaultOn
  dsimp only
  split
  · exact h0
  · rename_i b hopen
    have hdev : DevOk d b := h0.bdevs b (List.mem_of_find?_eq_some hopen)
    have h1 : LayoutInv d { ptableReset d s with bdev := some b } :=
      ⟨h0.bdevs, fun hn => by simp at hn, fun b' hb' => by
        cases hb'
        exact ⟨hdev, laid_nil⟩⟩
    split
    · exact h1.resetOnError
    · rename_i len halloc
      obtain ⟨hoff, hroom⟩ := ptableAllocateAt_ok (b := b) rfl hdev rfl (by decide) halloc
      have htot := hdev.totalSize_lt
      have hfit := hroom.fits
      have hpub := h1.publish io (e := .make offset len ptablePartName) rfl
        (by
          have hnil : (ptableReset d s).list = [] := rfl
          simpa only [Entry.make, hnil, u64_of_lt (by omega : offset < 2 ^ 64),
            u64_of_lt (by omega : len < 2 ^ 64)] using hroom)
      split
      · rename_i t err hp
        rw [hp] at hpub
        exact LayoutInv.resetOnError hpub
      · rename_i t hp
        rw [hp] at hpub
        exact LayoutInv.resetOnError hpub.write

/-- The place `ptable_add` publishes its entry in. -/
theorem LayoutInv.room (hb : s.bdev = some b) {minLen o L : ℕ}
    (ha : ptableAllocate d s minLen ae = .ok (o, L)) (name : CString) :
    Room d b 0 s.list (Entry.make o L name).offset (Entry.make o L name).length ∧
      (Entry.make o L name).length = L := by
  obtain ⟨hdev, hlaid⟩ := h.mounted b hb
  obtain ⟨-, hroom⟩ := ptableAllocate_ok hb hdev hlaid ha
  have htot := hdev.totalSize_lt
  have hfit := hroom.fits
  have hlen : (Entry.make o L name).length = L := u64_of_lt (by omega)
  have hoff : (Entry.make o L name).offset = o := u64_of_lt (by omega)
  rw [hlen, hoff]
  exact ⟨hroom, rfl⟩

theorem LayoutInv.add (name : CString) (minLen : ℕ) (ae : Bool) :
    LayoutInv d (ptableAddOn d crc32 io s name minLen ae).1 := by
  unfold ptableAddOn
  split
  · exact h
  rename_i b hb
  split_ifs
  · exact h
  split
  · exact h
  rename_i o L ha
  have hpub := h.publish io hb (h.room hb ha name).1
  split
  · rename_i t err hp
    rw [hp] at hpub
    exact hpub
  · rename_i t hp
    rw [hp] at hpub
    exact hpub.write

theorem LayoutInv.remove (name : CString) :
    LayoutInv d (ptableRemoveOn d crc32 io s name).1 := by
  unfold ptableRemoveOn
  split
  · exact h
  rename_i b hb
  split_ifs
  · exact h
  · refine LayoutInv.write ⟨fun x hx => h.bdevs x (List.mem_of_mem_eraseP hx), fun hn => ?_,
      fun b' hb' => ⟨(h.mounted b' hb').1, (h.mounted b' hb').2.eraseP _⟩⟩
    simp [hb] at hn
  · exact h

theorem LayoutInv.step {s' : State} {a : Act × Answers}
    (hs : ptableStepOn d crc32 s a = some s') : LayoutInv d s' := by
  obtain ⟨act, io⟩ := a
  cases hs
  cases act with
  | createDefault bdevName offset => exact h.createDefault bdevName offset
  | add name minLen allocEnd => exact h.add name minLen allocEnd
  | remove name => exact h.remove name

/-- A partition that was added is long enough. -/
theorem LayoutInv.added {name : CString} {minLen : ℕ}
    (hmin : minLen < 2 ^ 64) (hadd : (ptableAddOn d crc32 io s name minLen ae).2 = none) :
    ∃ e ∈ (ptableAddOn d crc32 io s name minLen ae).1.list, e.cname = name ∧ minLen ≤ e.length := by
  unfold ptableAddOn at hadd ⊢
  split at hadd
  · cases hadd
  rename_i b hb
  split_ifs at hadd with hname
  rw [if_neg hname]
  split at hadd
  · cases hadd
  rename_i o L ha
  have hlen := (h.room hb ha name).2
  obtain ⟨hdev, hlaid⟩ := h.mounted b hb
  obtain ⟨hup, hroom⟩ := ptableAllocate_ok hb hdev hlaid ha
  have hmem := ptablePublishOn_mem (d := d) io s (e := .make o L name)
  split at hadd
  · cases hadd
  · rename_i t hp
    rw [hp] at hmem
    obtain ⟨hmem, hne⟩ := hmem rfl
    refine ⟨.make o L name, ?_, Entry.cname_make o L (by omega), ?_⟩
    · rw [(ptableWriteOn_frame io t).1]
      exact hmem
    · rw [hlen] at hne ⊢
      have htot := hdev.totalSize_lt
      have hfit := hroom.fits
      have hbs : 2 ^ d.blockShift ≤ 2 ^ 31 := d.blockSize_le
      have hk : d.blockShift ≤ 64 := by have := d.blockShift_lt; omega
      -- a request so long that rounding it up wraps is one for nothing, which cannot be published
      rcases Nat.lt_or_ge (2 ^ 64) (minLen + 2 ^ d.blockShift) with hwrap | hfits
      · exact absurd (hup.2 (alignUp_wrap hmin hk hwrap)) hne
      · exact (le_alignUp hfits).trans hup.1

/-- A `ptable_add` that fails was given too long a name, could not publish or save the place
it had found, or found none because there is none of the length asked for. -/
theorem LayoutInv.refused (hb : s.bdev = some b) {name : CString}
    {minLen : ℕ} {err : Err} (hadd : (ptableAddOn d crc32 io s name minLen ae).2 = some err) :
    11 < name.bytes.length ∨
      (∃ o L t, ptableAllocate d s minLen ae = .ok (o, L) ∧
        (ptablePublishOn d io s (.make o L name) = (t, some err) ∨
          ptablePublishOn d io s (.make o L name) = (t, none) ∧
            (ptableWriteOn d crc32 io t).2 = some err)) ∨
      ∀ o L, minLen ≤ L → ¬ Place d b s.list o L := by
  obtain ⟨hdev, hlaid⟩ := h.mounted b hb
  unfold ptableAddOn at hadd
  rw [hb] at hadd
  dsimp only at hadd
  by_cases hname : 11 < name.bytes.length
  · exact .inl hname
  rw [if_neg hname] at hadd
  refine .inr ?_
  split at hadd
  · rename_i e ha
    exact .inr fun o L hle hp => absurd (ptableAllocate_error hb hdev hlaid ha hp) (by omega)
  · rename_i o L ha
    split at hadd
    · rename_i t e hp
      exact .inl ⟨o, L, t, ha, .inl (hp.trans (congrArg _ hadd))⟩
    · rename_i t hp
      exact .inl ⟨o, L, t, ha, .inr ⟨hp, hadd⟩⟩

end

/-- **Partitions lie where they should.**  On any device, with any erase regions, after any
run of `ptable_create_default`, `ptable_add` and `ptable_remove` with any answers of the heap
and the device, the table is laid out on its device.  A further `ptable_add` that succeeds
has added a partition of at least the length asked for.  `ptable_allocate` refuses only when
no place that long is left, and so `ptable_add` fails for no other want of space: else its
name was too long, or the place it found could not be published or the table not saved. -/
theorem ptable_layout (d : Device) (hd : GeoOk d.geometry) (crc32 : ℕ → List UInt8 → ℕ)
    (disk : ℕ → UInt8) (as : List (Act × Answers)) (s : State)
    (hrun : Machine.run (ptableStepOn d crc32) (.init disk) as = some s) :
    (s.bdev = none → s.list = []) ∧ ∀ b, s.bdev = some b → Laid d b s.list ∧
      ∀ (name : CString) (minLen : ℕ) (ae : Bool), minLen < 2 ^ 64 →
        (∀ io, (ptableAddOn d crc32 io s name minLen ae).2 = none →
          ∃ e ∈ (ptableAddOn d crc32 io s name minLen ae).1.list,
            e.cname = name ∧ minLen ≤ e.length) ∧
        (∀ err, ptableAllocate d s minLen ae = .error err →
          ∀ o L, minLen ≤ L → ¬ Place d b s.list o L) ∧
        ∀ io err, (ptableAddOn d crc32 io s name minLen ae).2 = some err →
          11 < name.bytes.length ∨
          (∃ o L t, ptableAllocate d s minLen ae = .ok (o, L) ∧
            (ptablePublishOn d io s (.make o L name) = (t, some err) ∨
              ptablePublishOn d io s (.make o L name) = (t, none) ∧
                (ptableWriteOn d crc32 io t).2 = some err)) ∨
          ∀ o L, minLen ≤ L → ¬ Place d b s.list o L := by
  have hinv : LayoutInv d s :=
    Machine.run_inv (fun _ _ _ h hs => h.step hs) as _ s (layoutInv_init hd disk) hrun
  refine ⟨hinv.unmounted, fun b hb => ?_⟩
  obtain ⟨hdev, hlaid⟩ := hinv.mounted b hb
  refine ⟨hlaid, fun name minLen ae hmin =>
    ⟨fun io hadd => hinv.added hmin hadd, ?_, fun io err => hinv.refused hb⟩⟩
  intro err herr o L hle hp
  have := ptableAllocate_error hb hdev hlaid herr hp
  omega

/-- A flash of 256 blocks of 256 bytes, of which the first 64 are erased in pages of 512 bytes
and the others in pages of 4096. -/
def flashTwoRegions : Device where
  name := flash256.name
  blockShift := 8
  blockCount := 256
  geometry := [⟨0, 0x4000, 9⟩, ⟨0x4000, 0xc000, 12⟩]
  eraseByte := 0xff
  blockShift_lt := flash256.blockShift_lt
  blockCount_lt := by decide

/-- A table in the one region and a partition at the end of the other. -/
theorem ptable_layout_two :
    ∃ s, Machine.run (ptableStepOn flashTwoRegions fun _ _ => 0) (.init fun _ => 0)
        [(.createDefault flash256.name 0, .working flashTwoRegions),
          (.add (letter 0) 5000 true, .working flashTwoRegions)] = some s ∧
      s.list.map (fun e => (e.offset, e.length)) = [(0, 1024), (0xe000, 0x2000)] ∧
      Laid flashTwoRegions .base s.list := by
  refine ⟨_, rfl, by decide +kernel, ?_⟩
  have h := ptable_layout flashTwoRegions ⟨by decide, by decide⟩ (fun _ _ => 0) (fun _ => 0)
    [(.createDefault flash256.name 0, .working flashTwoRegions),
      (.add (letter 0) 5000 true, .working flashTwoRegions)] _ rfl
  exact (h.2 .base (by decide +kernel)).1

end Ptable
end LittleKernel
