/-
# Fixed-width unsigned arithmetic on natural numbers

An unsigned C integer of width `w` is a natural number below `2 ^ w`; every
operation that may leave that range is followed by a reduction.  `u32` and
`u64` are the conversions, `sub32` and `sub64` the wrapping subtractions.
`addW` and `subW` are addition and subtraction at any width, and `lastW` the
last address of a range, which does not wrap where its end does.
-/

import Mathlib.Tactic.NormNum

namespace Word

/-- Conversion to `uint32_t`. -/
def u32 (x : ℕ) : ℕ := x % 2 ^ 32

/-- Conversion to `uint64_t`. -/
def u64 (x : ℕ) : ℕ := x % 2 ^ 64

/-- `a - b` in `uint32_t`. -/
def sub32 (a b : ℕ) : ℕ := u32 (u32 a + (2 ^ 32 - u32 b))

/-- `a - b` in `uint64_t`. -/
def sub64 (a b : ℕ) : ℕ := u64 (u64 a + (2 ^ 64 - u64 b))

theorem u32_lt (x : ℕ) : u32 x < 2 ^ 32 := Nat.mod_lt _ (by norm_num)

theorem u64_lt (x : ℕ) : u64 x < 2 ^ 64 := Nat.mod_lt _ (by norm_num)

theorem sub32_lt (a b : ℕ) : sub32 a b < 2 ^ 32 := u32_lt _

theorem u32_of_lt {x : ℕ} (h : x < 2 ^ 32) : u32 x = x := Nat.mod_eq_of_lt h

theorem u64_of_lt {x : ℕ} (h : x < 2 ^ 64) : u64 x = x := Nat.mod_eq_of_lt h

/-- A subtraction that does not borrow. -/
theorem sub32_of_le {a b : ℕ} (ha : a < 2 ^ 32) (h : b ≤ a) : sub32 a b = a - b := by
  unfold sub32 u32; omega

/-- A subtraction that does not borrow. -/
theorem sub64_of_le {a b : ℕ} (ha : a < 2 ^ 64) (h : b ≤ a) : sub64 a b = a - b := by
  unfold sub64 u64; omega

/-- A distance does not depend on where it is measured from. -/
theorem sub32_add_left (x a b : ℕ) : sub32 (u32 (x + a)) (u32 (x + b)) = sub32 a b := by
  simp only [sub32, u32]
  omega

/-- Two subtractions as one. -/
theorem sub32_add_right (a x n : ℕ) : sub32 a (u32 (x + n)) = sub32 (sub32 a (u32 x)) n := by
  simp only [sub32, u32]
  omega

/-- The borrow of a wrapping subtraction does not reach the low bits. -/
theorem sub32_mod_two_pow {a b p : ℕ} (hp : p ≤ 32) (ha : a < 2 ^ p) (hb : b < 2 ^ p) :
    sub32 a b % 2 ^ p = if b ≤ a then a - b else a + 2 ^ p - b := by
  have hle : 2 ^ p ≤ 2 ^ 32 := Nat.pow_le_pow_right (by norm_num) hp
  obtain ⟨q, hq⟩ : 2 ^ p ∣ 2 ^ 32 := pow_dvd_pow 2 hp
  have hq0 : 0 < q := by
    rcases Nat.eq_zero_or_pos q with rfl | h
    · simp at hq
    · exact h
  obtain ⟨r, rfl⟩ : ∃ r, q = r + 1 := ⟨q - 1, by omega⟩
  rw [sub32, u32, u32_of_lt (by omega), u32_of_lt (by omega), hq,
    Nat.mod_mod_of_dvd _ (Dvd.intro _ rfl), Nat.mul_add, Nat.mul_one]
  split_ifs with h
  · rw [show a + (2 ^ p * r + 2 ^ p - b) = (a - b) + 2 ^ p * (r + 1) by
      rw [Nat.mul_add]; omega, Nat.add_mul_mod_self_left, Nat.mod_eq_of_lt (by omega)]
  · rw [show a + (2 ^ p * r + 2 ^ p - b) = (a + 2 ^ p - b) + 2 ^ p * r by omega,
      Nat.add_mul_mod_self_left, Nat.mod_eq_of_lt (by omega)]

/-- `a + b` in `w` bits. -/
def addW (w a b : ℕ) : ℕ := (a + b) % 2 ^ w

/-- `a - b` in `w` bits. -/
def subW (w a b : ℕ) : ℕ := (a + (2 ^ w - b % 2 ^ w)) % 2 ^ w

/-- `base + size - 1` in `w` bits. -/
def lastW (w base size : ℕ) : ℕ := subW w (addW w base size) 1

theorem addW_of_lt {w a b : ℕ} (h : a + b < 2 ^ w) : addW w a b = a + b := Nat.mod_eq_of_lt h

theorem subW_of_le {w a b : ℕ} (ha : a < 2 ^ w) (h : b ≤ a) : subW w a b = a - b := by
  rw [subW, Nat.mod_eq_of_lt (show b < 2 ^ w by omega),
    show a + (2 ^ w - b) = a - b + 2 ^ w by omega, Nat.add_mod_right, Nat.mod_eq_of_lt (by omega)]

variable {w base size : ℕ}

theorem lastW_eq (hs : 0 < size) :
    lastW w base size = (base + size - 1) % 2 ^ w := by
  rcases Nat.eq_zero_or_pos w with rfl | hw
  · simp [lastW, subW, Nat.mod_one]
  · have h1 : 1 % 2 ^ w = 1 := Nat.mod_eq_of_lt (Nat.one_lt_two_pow (by omega))
    have hpow : 1 < 2 ^ w := Nat.one_lt_two_pow (by omega)
    rw [lastW, subW, addW, h1, Nat.mod_add_mod,
      show base + size + (2 ^ w - 1) = base + size - 1 + 2 ^ w by omega, Nat.add_mod_right]

/-- A range that ends at or below the top of the address space. -/
theorem lastW_of_le (hs : 0 < size) (h : base + size ≤ 2 ^ w) :
    lastW w base size = base + size - 1 := by
  rw [lastW_eq hs, Nat.mod_eq_of_lt (by omega)]

/-- A range that goes over the top of the address space ends before it starts. -/
theorem lastW_lt_of_gt (hb : base < 2 ^ w) (hs : size < 2 ^ w)
    (h : 2 ^ w < base + size) : lastW w base size < base := by
  rw [lastW_eq (by omega), Nat.mod_eq_sub_mod (by omega), Nat.mod_eq_of_lt (by omega)]
  omega

end Word
