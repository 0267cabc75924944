/-
# Fields of the registers of a card

`dev/mmc/mmc.c`: `mmc_extract_bits`, `mmc_extract_bits_reverse` and `mmc_extract_ext_csd`.

A register is an array of 32-bit words as the processor reads them.  CSD and EXT_CSD are one
number with the first word lowest (`littleRegister`); SCR and the switch status come over the
data lines with the most significant byte first, so the first word is highest and the bytes of
each are turned round (`bigRegister`).

A field lies in one word or in two.  Its mask is made by a shift of `1`, an `int`, by the
width of the field: a shift by 32 is undefined.
-/

import LittleKernel.Lib.Bytes
import Mathlib.Data.Nat.Bitwise
import Mathlib.Data.Nat.Digits.Defs

namespace LittleKernel
namespace Mmc

open Bytes

/-- `change_endian`. -/
def changeEndian (value : ℕ) : ℕ :=
  ((value &&& 0xFF) <<< 24) % 2 ^ 32 ||| ((value &&& 0xFF00) <<< 8) % 2 ^ 32 |||
    ((value &&& 0xFF0000) >>> 8) ||| ((value &&& 0xFF000000) >>> 24)

/-- `(1 << n) - 1`. -/
def fieldMask (n : ℕ) : Option ℕ := if n < 32 then some (2 ^ n - 1) else none

/-- `mmc_extract_bits_reverse`, of the bits from `start` to `stop`. -/
def mmcExtractBitsReverse (start stop : ℕ) (value : List UInt32) : Option ℕ :=
  let idx1 := value.length - 1 - start / 32
  let offset := start % 32
  let ret := changeEndian (value.getD idx1 0).toNat >>> offset
  let idx2 := value.length - 1 - stop / 32
  (fieldMask (stop - start + 1)).map fun mask =>
    (if idx2 > idx1 then ret ||| (changeEndian (value.getD idx2 0).toNat <<< (32 - offset)) % 2 ^ 32
    else ret) &&& mask

/-- `mmc_extract_bits`. -/
def mmcExtractBits (start stop : ℕ) (value : List UInt32) : Option ℕ :=
  let idx1 := start / 32
  let offset := start % 32
  let ret := (value.getD idx1 0).toNat >>> offset
  let idx2 := stop / 32
  (fieldMask (stop - start + 1)).map fun mask =>
    (if idx2 > idx1 then ret ||| ((value.getD idx2 0).toNat <<< (32 - offset)) % 2 ^ 32
    else ret) &&& mask

/-- `mmc_extract_ext_csd`: whole bytes. -/
def mmcExtractExtCsd (start stop : ℕ) (extCsd : List UInt32) : Option ℕ :=
  mmcExtractBits (start * 8) (stop * 8 + 7) extCsd

/-! ### Registers as numbers -/

/-- The first word lowest. -/
def littleRegister (value : List UInt32) : ℕ := Nat.ofDigits (2 ^ 32) (value.map UInt32.toNat)

/-- The bytes in memory with the first one highest. -/
def bigRegister (value : List UInt32) : ℕ :=
  ofLe (value.flatMap fun w => le 4 w.toNat).reverse

/-- The bits from `start` to `stop` of a number. -/
def bits (r start stop : ℕ) : ℕ := r / 2 ^ start % 2 ^ (stop - start + 1)

theorem testBit_ofDigits (ws : List ℕ) (hws : ∀ w ∈ ws, w < 2 ^ 32) (m : ℕ) :
    (Nat.ofDigits (2 ^ 32) ws).testBit m = (ws.getD (m / 32) 0).testBit (m % 32) := by
  induction ws generalizing m with
  | nil => simp
  | cons w ws ih =>
    have hw := hws w List.mem_cons_self
    rw [Nat.ofDigits_cons, Nat.add_comm, Nat.testBit_two_pow_mul_add _ hw]
    split_ifs with hm
    · rw [Nat.div_eq_of_lt hm, Nat.mod_eq_of_lt hm, List.getD_cons_zero]
    · rw [ih (fun v hv => hws v (List.mem_cons_of_mem w hv)),
        show m / 32 = (m - 32) / 32 + 1 by omega, show m % 32 = (m - 32) % 32 by omega,
        List.getD_cons_succ]

theorem testBit_bits (r start stop k : ℕ) :
    (bits r start stop).testBit k = (decide (k < stop - start + 1) && r.testBit (start + k)) := by
  rw [bits, Nat.testBit_mod_two_pow, Nat.testBit_div_two_pow, Nat.add_comm k]

/-! ### The bytes turned round -/

/-- A byte that a mask cuts out. -/
theorem and_byte (x j : ℕ) : x &&& (255 * 2 ^ j) = x / 2 ^ j % 256 * 2 ^ j := by
  refine Nat.eq_of_testBit_eq fun k => ?_
  rw [Nat.testBit_and, Nat.testBit_mul_two_pow, Nat.testBit_mul_two_pow,
    show (256 : ℕ) = 2 ^ 8 by norm_num, show (255 : ℕ) = 2 ^ 8 - 1 by norm_num,
    Nat.testBit_mod_two_pow, Nat.testBit_two_pow_sub_one, Nat.testBit_div_two_pow]
  by_cases hk : j ≤ k
  · rw [Nat.sub_add_cancel hk]
    simp [hk, Bool.and_comm]
  · simp [hk]

/-- Parts that do not overlap. -/
theorem or_eq_add {x y i : ℕ} (hx : 2 ^ i ∣ x) (hy : y < 2 ^ i) : x ||| y = x + y := by
  obtain ⟨a, rfl⟩ := hx
  exact (Nat.two_pow_add_eq_or_of_lt hy a).symm

/-- Four bytes side by side. -/
theorem or_bytes {a b c d : ℕ} (hb : b < 256) (hc : c < 256) (hd : d < 256) :
    2 ^ 24 * a ||| 2 ^ 16 * b ||| 2 ^ 8 * c ||| d = 2 ^ 24 * a + 2 ^ 16 * b + 2 ^ 8 * c + d := by
  have h₁ : 2 ^ 24 * a ||| 2 ^ 16 * b = 2 ^ 24 * a + 2 ^ 16 * b :=
    or_eq_add (Nat.dvd_mul_right _ _) (by omega)
  have h₂ : 2 ^ 24 * a + 2 ^ 16 * b ||| 2 ^ 8 * c = 2 ^ 24 * a + 2 ^ 16 * b + 2 ^ 8 * c :=
    or_eq_add (i := 16) ⟨2 ^ 8 * a + b, by omega⟩ (by omega)
  rw [h₁, h₂]
  exact or_eq_add (i := 8) ⟨2 ^ 16 * a + 2 ^ 8 * b + c, by omega⟩ (by omega)

theorem changeEndian_eq (w : ℕ) : changeEndian w = ofLe (le 4 w).reverse := by
  have h₀ : w &&& 0xFF = w % 256 * 1 := and_byte w 0 ▸ by rw [pow_zero, Nat.div_one]
  have h₁ : w &&& 0xFF00 = w / 256 % 256 * 256 := and_byte w 8
  have h₂ : w &&& 0xFF0000 = w / 65536 % 256 * 65536 := and_byte w 16
  have h₃ : w &&& 0xFF000000 = w / 16777216 % 256 * 16777216 := and_byte w 24
  have hle : ofLe (le 4 w).reverse =
      2 ^ 24 * (w % 256) + 2 ^ 16 * (w / 256 % 256) + 2 ^ 8 * (w / 65536 % 256) +
        w / 16777216 % 256 := by
    simp only [le, ofLe, List.reverse_cons, List.reverse_nil, List.nil_append, List.cons_append,
      UInt8.toNat_ofNat', Nat.div_div_eq_div_mul, Nat.reduceMul]
    omega
  rw [changeEndian, h₀, h₁, h₂, h₃, hle]
  simp only [Nat.shiftLeft_eq, Nat.shiftRight_eq_div_pow]
  have hb := Nat.mod_lt (w / 256) (show 0 < 256 by norm_num)
  have hc := Nat.mod_lt (w / 65536) (show 0 < 256 by norm_num)
  have hd := Nat.mod_lt (w / 16777216) (show 0 < 256 by norm_num)
  have ha := Nat.mod_lt w (show 0 < 256 by norm_num)
  generalize w % 256 = a at ha ⊢
  generalize w / 256 % 256 = b at hb ⊢
  generalize w / 65536 % 256 = c at hc ⊢
  generalize w / 16777216 % 256 = d at hd ⊢
  rw [← or_bytes hb hc hd]
  congr 1
  · congr 1
    · congr 1 <;> omega
    · omega
  · omega

theorem changeEndian_lt (w : ℕ) : changeEndian w < 2 ^ 32 := by
  have h := ofLe_lt (le 4 w).reverse
  rw [List.length_reverse, length_le] at h
  rw [changeEndian_eq]
  exact h

/-- Byte strings one behind the other. -/
theorem length_flatMap_le (value : List UInt32) :
    (value.flatMap fun w => le 4 w.toNat).length = value.length * 4 := by
  simp [List.length_flatMap, List.map_const']

theorem bigRegister_eq (value : List UInt32) :
    bigRegister value =
      Nat.ofDigits (2 ^ 32) (value.reverse.map fun w => changeEndian w.toNat) := by
  rw [bigRegister]
  induction value with
  | nil => rfl
  | cons w value ih =>
    rw [List.flatMap_cons, List.reverse_append, ofLe_append, ih, ← changeEndian_eq,
      List.reverse_cons, List.map_append, Nat.ofDigits_append, List.length_reverse,
      length_flatMap_le, List.length_map, List.length_reverse, pow_mul', List.map_cons,
      List.map_nil, Nat.ofDigits_singleton, show 256 ^ 4 = 2 ^ 32 by norm_num]

/-! ### What is extracted -/

/-- A field of words of 32 bits, as the two functions put it together: `lower` and `upper` are
the words that it starts and ends in. -/
theorem testBit_assembled {lower upper start stop k : ℕ} (hl : lower < 2 ^ 32) (h : start ≤ stop)
    (hwidth : stop - start < 31) :
    (((if stop / 32 > start / 32 then
        lower >>> (start % 32) ||| (upper <<< (32 - start % 32)) % 2 ^ 32
      else lower >>> (start % 32)) &&& (2 ^ (stop - start + 1) - 1)).testBit k) =
      (decide (k < stop - start + 1) &&
        if (start + k) / 32 = start / 32 then lower.testBit ((start + k) % 32)
        else upper.testBit ((start + k) % 32)) := by
  rw [Nat.testBit_and, Nat.testBit_two_pow_sub_one, Bool.and_comm]
  by_cases hk : k < stop - start + 1
  swap
  · simp [hk]
  simp only [hk, decide_true, Bool.true_and]
  by_cases hsame : (start + k) / 32 = start / 32
  · -- in the word of `start`
    have hlow : ((upper <<< (32 - start % 32)) % 2 ^ 32).testBit k = false := by
      rw [Nat.testBit_mod_two_pow, Nat.testBit_shiftLeft]
      simp [show ¬ k ≥ 32 - start % 32 by omega]
    rw [if_pos hsame, show (start + k) % 32 = start % 32 + k by omega]
    split_ifs
    · rw [Nat.testBit_or, Nat.testBit_shiftRight, hlow, Bool.or_false]
    · rw [Nat.testBit_shiftRight]
  · have hnone : (lower >>> (start % 32)).testBit k = false := by
      rw [Nat.testBit_shiftRight]
      exact Nat.testBit_lt_two_pow (lt_of_lt_of_le hl (Nat.pow_le_pow_right (by omega) (by omega)))
    rw [if_neg hsame, if_pos (by omega), Nat.testBit_or, hnone, Bool.false_or,
      Nat.testBit_mod_two_pow, Nat.testBit_shiftLeft]
    simp only [show k < 32 by omega, show k ≥ 32 - start % 32 by omega, decide_true, Bool.true_and]
    congr 1
    omega

theorem testBit_littleRegister (value : List UInt32) (m : ℕ) :
    (littleRegister value).testBit m = (value.getD (m / 32) 0).toNat.testBit (m % 32) := by
  rw [littleRegister, testBit_ofDigits]
  · rw [show (0 : ℕ) = (0 : UInt32).toNat by rfl, List.getD_map]
  · intro w hw
    obtain ⟨v, -, rfl⟩ := List.mem_map.1 hw
    exact v.toNat_lt

theorem testBit_bigRegister (value : List UInt32) {m : ℕ} (hm : m / 32 < value.length) :
    (bigRegister value).testBit m =
      (changeEndian (value.getD (value.length - 1 - m / 32) 0).toNat).testBit (m % 32) := by
  rw [bigRegister_eq, testBit_ofDigits]
  · rw [List.getD_eq_getElem _ _ (by simpa using hm), List.getElem_map, List.getElem_reverse,
      List.getD_eq_getElem _ _ (by omega)]
  · intro w hw
    obtain ⟨v, -, rfl⟩ := List.mem_map.1 hw
    exact changeEndian_lt _

/-- The part of a field that lies above its first word is zero. -/
theorem upper_zero_iff {upper start stop : ℕ} (h : start ≤ stop) (hwidth : stop - start < 32) :
    (∀ k < stop - start + 1, (start + k) / 32 ≠ start / 32 →
        upper.testBit ((start + k) % 32) = false) ↔
      start / 32 = stop / 32 ∨ upper % 2 ^ (stop % 32 + 1) = 0 := by
  constructor
  · intro hz
    by_cases hsame : start / 32 = stop / 32
    · exact .inl hsame
    · refine .inr (Nat.eq_of_testBit_eq fun j => ?_)
      rw [Nat.testBit_mod_two_pow, Nat.zero_testBit]
      by_cases hj : j < stop % 32 + 1
      · have hbit := hz (stop / 32 * 32 + j - start) (by omega) (by omega)
        rw [show start + (stop / 32 * 32 + j - start) = stop / 32 * 32 + j by omega,
          show (stop / 32 * 32 + j) % 32 = j by omega] at hbit
        rw [hbit, Bool.and_false]
      · simp [hj]
  · rintro (hsame | hz) k hk hother
    · omega
    · have hbit := Nat.testBit_mod_two_pow upper (stop % 32 + 1) ((start + k) % 32)
      rw [hz, Nat.zero_testBit] at hbit
      simpa [show (start + k) % 32 < stop % 32 + 1 by omega] using hbit.symm

/-- The words of a field in the little-endian order. -/
theorem mmcExtractBits_iff {start stop : ℕ} {value : List UInt32} (h : start ≤ stop)
    (hwidth : stop - start + 1 ≤ 32) :
    mmcExtractBits start stop value = some (bits (littleRegister value) start stop) ↔
      stop - start + 1 < 32 := by
  rw [mmcExtractBits]
  by_cases hw : stop - start + 1 < 32
  · refine iff_of_true ?_ hw
    rw [fieldMask, if_pos hw, Option.map_some, Option.some.injEq]
    refine Nat.eq_of_testBit_eq fun k => ?_
    rw [testBit_assembled (UInt32.toNat_lt _) h (by omega), testBit_bits, testBit_littleRegister]
    by_cases hk : k < stop - start + 1
    · split_ifs with hsame
      · rw [hsame]
      · rw [show (start + k) / 32 = stop / 32 by omega]
    · simp [hk]
  · refine iff_of_false ?_ hw
    simp [fieldMask, hw]

/-- Those in the order of the wire. -/
theorem mmcExtractBitsReverse_iff {start stop : ℕ} {value : List UInt32} (h : start ≤ stop)
    (hin : stop < 32 * value.length) (hwidth : stop - start + 1 ≤ 32) :
    mmcExtractBitsReverse start stop value = some (bits (bigRegister value) start stop) ↔
      stop - start + 1 < 32 ∧ (start / 32 = stop / 32 ∨
        changeEndian (value.getD (value.length - 1 - stop / 32) 0).toNat %
          2 ^ (stop % 32 + 1) = 0) := by
  rw [mmcExtractBitsReverse]
  by_cases hw : stop - start + 1 < 32
  swap
  · exact iff_of_false (by simp [fieldMask, hw]) fun hcond => hw hcond.1
  have hnever : ¬ value.length - 1 - stop / 32 > value.length - 1 - start / 32 := by
    have := Nat.div_le_div_right (c := 32) h
    omega
  rw [fieldMask, if_pos hw, Option.map_some, Option.some.injEq, if_neg hnever,
    and_iff_right hw, ← upper_zero_iff h (by omega)]
  -- as it would be with an upper word of zeros
  have hzero : ∀ x, x >>> (start % 32) = if stop / 32 > start / 32 then
      x >>> (start % 32) ||| (0 <<< (32 - start % 32)) % 2 ^ 32 else x >>> (start % 32) := by
    intro x
    simp
  rw [hzero]
  refine Iff.trans ⟨fun he k => congrArg (Nat.testBit · k) he, Nat.eq_of_testBit_eq⟩
    (forall_congr' fun k => ?_)
  rw [testBit_assembled (changeEndian_lt _) h (by omega), testBit_bits]
  by_cases hk : k < stop - start + 1
  · rw [testBit_bigRegister _ (by omega)]
    by_cases hsame : (start + k) / 32 = start / 32
    · simp [hsame]
    · have hup : (start + k) / 32 = stop / 32 := by omega
      rw [hup] at hsame ⊢
      simp [hk, hsame]
  · simp [hk]

/-- **Where fields come out whole:** all that are no full word wide, and of the registers with
the first word highest those that do not reach into another word with a bit that is set. -/
theorem mmc_extract_bits_iff {start stop : ℕ} {value : List UInt32} (h : start ≤ stop)
    (hin : stop < 32 * value.length) (hwidth : stop - start + 1 ≤ 32) :
    (mmcExtractBits start stop value = some (bits (littleRegister value) start stop) ↔
      stop - start + 1 < 32) ∧
    (mmcExtractBitsReverse start stop value = some (bits (bigRegister value) start stop) ↔
      stop - start + 1 < 32 ∧ (start / 32 = stop / 32 ∨
        changeEndian (value.getD (value.length - 1 - stop / 32) 0).toNat %
          2 ^ (stop % 32 + 1) = 0)) :=
  ⟨mmcExtractBits_iff h hwidth, mmcExtractBitsReverse_iff h hin hwidth⟩

/-- The bits 30 to 33 of two words: with the first word lowest all four count, with the first word
highest the two in it are zero. -/
theorem mmc_extract_bits_iff_crossing :
    mmcExtractBits 30 33 [0x40000000, 0xC2] =
        some (bits (littleRegister [0x40000000, 0xC2]) 30 33) ∧
      mmcExtractBitsReverse 30 33 [0x40000000, 0xC2] =
        some (bits (bigRegister [0x40000000, 0xC2]) 30 33) ∧
      bits (littleRegister [0x40000000, 0xC2]) 30 33 = 9 ∧
        bits (bigRegister [0x40000000, 0xC2]) 30 33 = 3 := by
  obtain ⟨hlittle, hbig⟩ := @mmc_extract_bits_iff 30 33 [0x40000000, 0xC2] (by decide) (by decide)
    (by decide)
  exact ⟨hlittle.2 (by decide), hbig.2 ⟨by decide, .inr (by decide)⟩, by decide +kernel,
    by decide +kernel⟩

/-- `EXT_CSD_SEC_CNT` is a full word, and bit 32 of a register with the first word highest is
lost behind bit 31. -/
theorem mmc_extract_bits_short :
    mmcExtractExtCsd 0 3 [0x01D5A000] = none ∧
      mmcExtractBitsReverse 31 32 [0x01000000, 0] = some 0 ∧
        bits (bigRegister [0x01000000, 0]) 31 32 = 2 := by
  decide +kernel

end Mmc
end LittleKernel
