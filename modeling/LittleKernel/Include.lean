/-
# What the headers give every module

`lib/libc/include/assert.h` (`DEBUG_ASSERT`) and `include/pow2.h`.

A function whose call may not return is an `Option`, `none` standing for the
call that stops the machine or never comes back.  `DEBUG_ASSERT` stops it only
in builds that compile it in (`LK_DEBUGLEVEL > 1`); `engine.mk` sets the level
to 2 unless told otherwise, so both kinds of build are modelled, with the level
a parameter.
-/

import LittleKernel.Lib.Word

namespace LittleKernel

open Word

/-- `DEBUG_ASSERT(p)` lets the call go on: `LK_DEBUGLEVEL` compiles it out, or
`p` holds. -/
def DebugAssert (lvl : ℕ) (p : Prop) : Prop := 1 < lvl → p

instance (lvl : ℕ) (p : Prop) [Decidable p] : Decidable (DebugAssert lvl p) :=
  inferInstanceAs (Decidable (1 < lvl → p))

theorem DebugAssert.of {lvl : ℕ} {p : Prop} (h : p) : DebugAssert lvl p := fun _ => h

/-- `valpow2`: `1U << valp2`. -/
def valpow2 (valp2 : ℕ) : ℕ := u32 (2 ^ valp2)

/-- `modpow2`: the low `modp2` bits of a `uint`. -/
def modpow2 (val modp2 : ℕ) : ℕ := u32 val % 2 ^ modp2

/-- `log2_uint`, `0` at `0`. -/
def log2Uint (val : ℕ) : ℕ := Nat.log2 (u32 val)

/-- `ispow2`. -/
def ispow2 (val : ℕ) : Bool := (sub32 val 1 &&& u32 val) == 0

variable {p : ℕ}

theorem two_pow_lt_of_le (hp : p ≤ 31) : 2 ^ p < 2 ^ 32 :=
  Nat.pow_lt_pow_right (by norm_num) (by omega)

theorem valpow2_eq (hp : p ≤ 31) : valpow2 p = 2 ^ p := u32_of_lt (two_pow_lt_of_le hp)

theorem modpow2_eq {v p : ℕ} (hv : v < 2 ^ 32) : modpow2 v p = v % 2 ^ p := by
  rw [modpow2, u32_of_lt hv]

theorem log2Uint_two_pow (hp : p ≤ 31) : log2Uint (2 ^ p) = p := by
  rw [log2Uint, u32_of_lt (two_pow_lt_of_le hp), Nat.log2_two_pow]

theorem ispow2_two_pow (hp : p ≤ 31) : ispow2 (2 ^ p) = true := by
  have hlt := two_pow_lt_of_le hp
  have hpos : 0 < 2 ^ p := Nat.two_pow_pos p
  rw [ispow2, sub32_of_le hlt hpos, u32_of_lt hlt, beq_iff_eq, Nat.and_comm]
  apply Nat.eq_of_testBit_eq
  intro i
  rw [Nat.testBit_and, Nat.testBit_two_pow, Nat.testBit_two_pow_sub_one, Nat.zero_testBit]
  by_cases h : p = i <;> simp [h]

end LittleKernel
