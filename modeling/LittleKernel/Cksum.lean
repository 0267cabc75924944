/-
# CRC-32

`external/lib/cksum/crc32.c`: `make_crc_table` for one byte and the byte loop of `crc32`.
The word loops `crc32_little` and `crc32_big` compute the same.

A byte moves the remainder through eight shifts, which are linear in exclusive or and lose
nothing; so four bytes move it through thirty-two shifts of the remainder with their word
added, and texts that differ in one word have different checksums (`crc32_word_injective`).
-/

import Mathlib.Algebra.Group.Nat.Defs
import Mathlib.Data.List.Basic

namespace LittleKernel
namespace Cksum

/-- The entry of `crc_table[0]` for `n`. -/
def crcTable (n : UInt32) : UInt32 :=
  (List.range 8).foldl
    (fun (c : UInt32) _ => if c &&& 1 = 1 then (c >>> 1) ^^^ 0xedb88320 else c >>> 1) n

/-- `crc32`. -/
def crc32 (crc : UInt32) (buf : List UInt8) : UInt32 :=
  buf.foldl (fun crc b => crcTable ((crc ^^^ b.toUInt32) &&& 0xff) ^^^ (crc >>> 8))
    (crc ^^^ 0xffffffff) ^^^ 0xffffffff

/-- The checksum of bytes that come in two pieces. -/
theorem crc32_append (crc : UInt32) (a b : List UInt8) :
    crc32 (crc32 crc a) b = crc32 crc (a ++ b) := by
  simp only [crc32, List.foldl_append, UInt32.xor_assoc, UInt32.xor_self, UInt32.xor_zero]

theorem crc32_take_drop (crc : UInt32) (l : List UInt8) (n : ℕ) :
    crc32 crc l = crc32 (crc32 crc (l.take n)) (l.drop n) := by
  rw [crc32_append, List.take_append_drop]

/-! ### Changing one word -/

/-- One bit of `make_crc_table`. -/
def crcShift (c : UInt32) : UInt32 := if c &&& 1 = 1 then (c >>> 1) ^^^ 0xedb88320 else c >>> 1

/-- Eight of them. -/
def crcShift8 (c : UInt32) : UInt32 :=
  crcShift (crcShift (crcShift (crcShift (crcShift (crcShift (crcShift (crcShift c)))))))

theorem crcTable_eq (n : UInt32) : crcTable n = crcShift8 n := rfl

theorem low_bit (c : UInt32) : c &&& 1 = 0 ∨ c &&& 1 = 1 := by
  have h : (c &&& 1).toNat = c.toNat % 2 := by
    rw [UInt32.toNat_and]
    exact Nat.and_one_is_mod _
  rcases Nat.mod_two_eq_zero_or_one c.toNat with h' | h'
  · exact .inl (UInt32.toNat_inj.1 (by rw [h, h']; rfl))
  · exact .inr (UInt32.toNat_inj.1 (by rw [h, h']; rfl))

variable {c : UInt32}

theorem crcShift_of_even (h : c &&& 1 = 0) : crcShift c = c >>> 1 := by
  rw [crcShift, h, if_neg (by decide)]

theorem crcShift_of_odd (h : c &&& 1 = 1) : crcShift c = (c >>> 1) ^^^ 0xedb88320 := by
  rw [crcShift, if_pos h]

theorem xor_and (a b c : UInt32) : (a ^^^ b) &&& c = (a &&& c) ^^^ (b &&& c) := by
  refine UInt32.toBitVec_inj.1 (BitVec.eq_of_getLsbD_eq fun i _ => ?_)
  simp only [UInt32.toBitVec_and, UInt32.toBitVec_xor, BitVec.getLsbD_and, BitVec.getLsbD_xor]
  cases a.toBitVec.getLsbD i <;> cases b.toBitVec.getLsbD i <;> simp

/-- A shift of the remainder is linear. -/
theorem crcShift_xor (a b : UInt32) : crcShift (a ^^^ b) = crcShift a ^^^ crcShift b := by
  have hbit := xor_and a b 1
  rcases low_bit a with ha | ha <;> rcases low_bit b with hb | hb <;> rw [ha, hb] at hbit
  · rw [crcShift_of_even hbit, crcShift_of_even ha, crcShift_of_even hb, UInt32.shiftRight_xor]
  · rw [crcShift_of_odd hbit, crcShift_of_even ha, crcShift_of_odd hb, UInt32.shiftRight_xor,
      UInt32.xor_assoc]
  · rw [crcShift_of_odd hbit, crcShift_of_odd ha, crcShift_of_even hb, UInt32.shiftRight_xor,
      UInt32.xor_assoc, UInt32.xor_assoc, UInt32.xor_comm (b >>> 1)]
  · rw [crcShift_of_even hbit, crcShift_of_odd ha, crcShift_of_odd hb, UInt32.shiftRight_xor,
      UInt32.xor_assoc, UInt32.xor_comm (b >>> 1), ← UInt32.xor_assoc 0xedb88320, UInt32.xor_self,
      UInt32.zero_xor]

/-- ... and loses nothing: the polynomial has its top bit set. -/
theorem crcShift_eq_zero (h : crcShift c = 0) : c = 0 := by
  have hlt : (c >>> 1).toNat = c.toNat / 2 := by
    rw [UInt32.toNat_shiftRight]
    exact Nat.shiftRight_eq_div_pow _ 1
  rcases low_bit c with hc | hc
  · rw [crcShift_of_even hc] at h
    rw [h] at hlt
    have hmod : (c &&& 1).toNat = c.toNat % 2 := by
      rw [UInt32.toNat_and]
      exact Nat.and_one_is_mod _
    rw [hc] at hmod
    refine UInt32.toNat_inj.1 ?_
    change c.toNat = 0
    change 0 = c.toNat / 2 at hlt
    change 0 = c.toNat % 2 at hmod
    omega
  · rw [crcShift_of_odd hc, UInt32.xor_eq_zero_iff] at h
    rw [h] at hlt
    have := c.toNat_lt
    change 0xedb88320 = c.toNat / 2 at hlt
    omega

theorem crcShift8_xor (a b : UInt32) : crcShift8 (a ^^^ b) = crcShift8 a ^^^ crcShift8 b := by
  simp only [crcShift8, crcShift_xor]

theorem crcShift8_injective {a b : UInt32} (h : crcShift8 a = crcShift8 b) : a = b := by
  have h0 : crcShift8 (a ^^^ b) = 0 := by rw [crcShift8_xor, h, UInt32.xor_self]
  refine UInt32.xor_eq_zero_iff.1 ?_
  unfold crcShift8 at h0
  iterate 8 apply crcShift_eq_zero
  exact h0

/-- A remainder whose low byte is clear only moves down. -/
theorem crcShift8_of_low {y : UInt32} (h : y &&& 0xff = 0) : crcShift8 y = y >>> 8 := by
  have hbit : ∀ k : UInt32, (0xff >>> k) &&& 1 = 1 → (y >>> k) &&& 1 = 0 := by
    intro k hk
    have := congrArg (fun z : UInt32 => (z >>> k) &&& 1) h
    simp only [UInt32.shiftRight_and, UInt32.and_assoc, hk] at this
    simpa using this
  have hstep : ∀ k k' : UInt32, (0xff >>> k) &&& 1 = 1 → k.toNat % 32 + 1 = k'.toNat % 32 →
      crcShift (y >>> k) = y >>> k' := by
    intro k k' hk hk'
    rw [crcShift_of_even (hbit k hk)]
    refine UInt32.toNat_inj.1 ?_
    rw [UInt32.toNat_shiftRight, UInt32.toNat_shiftRight, UInt32.toNat_shiftRight, ← hk',
      Nat.shiftRight_add]
    rfl
  have h0 : crcShift y = y >>> 1 := by
    have := hstep 0 1 (by decide) (by decide)
    rwa [UInt32.shiftRight_zero] at this
  rw [crcShift8, h0, hstep 1 2 (by decide) (by decide), hstep 2 3 (by decide) (by decide),
    hstep 3 4 (by decide) (by decide), hstep 4 5 (by decide) (by decide),
    hstep 5 6 (by decide) (by decide), hstep 6 7 (by decide) (by decide),
    hstep 7 8 (by decide) (by decide)]

theorem toUInt32_shiftRight_eight (b : UInt8) : b.toUInt32 >>> 8 = 0 := by
  refine UInt32.toNat_inj.1 ?_
  have := b.toNat_lt
  rw [UInt32.toNat_shiftRight, UInt8.toNat_toUInt32, Nat.shiftRight_eq_div_pow]
  change b.toNat / 2 ^ 8 = 0
  omega

/-- **One byte of `crc32`** is eight shifts of the remainder with the byte added. -/
theorem crc32_step (c : UInt32) (b : UInt8) :
    crcTable ((c ^^^ b.toUInt32) &&& 0xff) ^^^ (c >>> 8) = crcShift8 (c ^^^ b.toUInt32) := by
  have hc : c >>> 8 = (c ^^^ b.toUInt32) >>> 8 := by
    rw [UInt32.shiftRight_xor, toUInt32_shiftRight_eight, UInt32.xor_zero]
  rw [hc]
  generalize c ^^^ b.toUInt32 = x
  have hall : x &&& 0xffffffff = x := UInt32.and_neg_one
  have hsplit : (x &&& 0xff) ^^^ (x &&& 0xffffff00) = x := by
    rw [UInt32.and_comm x, UInt32.and_comm x, ← xor_and, UInt32.and_comm]
    exact hall
  have hlow : (x &&& 0xffffff00) &&& 0xff = 0 := by
    rw [UInt32.and_assoc]
    exact UInt32.and_zero
  have hhigh : (x &&& 0xffffff00) >>> 8 = x >>> 8 := by
    rw [UInt32.shiftRight_and, show (0xffffff00 : UInt32) >>> 8 = (0xffffffff : UInt32) >>> 8 by decide,
      ← UInt32.shiftRight_and, hall]
  conv => rhs; rw [← hsplit]
  rw [crcShift8_xor, crcShift8_of_low hlow, hhigh, crcTable_eq]

/-- Four bytes as the word they are read into. -/
def word (a b c d : UInt8) : UInt32 :=
  a.toUInt32 ^^^ (b.toUInt32 <<< 8) ^^^ (c.toUInt32 <<< 16) ^^^ (d.toUInt32 <<< 24)

section Shift

variable {v k k' : UInt32} (hk : k.toNat + 8 = k'.toNat) (hk' : k'.toNat ≤ 24) (hv : v.toNat < 256)

include hk hk' hv

theorem toNat_shiftLeft_byte : (v <<< k').toNat = v.toNat * 2 ^ k.toNat * 256 := by
  have hpow : v.toNat * 2 ^ k'.toNat < 2 ^ 32 := by
    have := Nat.mul_lt_mul_of_lt_of_le hv (Nat.pow_le_pow_right (by omega : 0 < 2) hk')
      (Nat.two_pow_pos _)
    omega
  rw [UInt32.toNat_shiftLeft, Nat.mod_eq_of_lt (show k'.toNat < 32 by omega), Nat.shiftLeft_eq,
    Nat.mod_eq_of_lt hpow, ← hk, Nat.pow_add, Nat.mul_assoc]

/-- A byte that is moved up has nothing in the low byte. -/
theorem shiftLeft_toUInt8 : (v <<< k').toUInt8 = 0 := by
  refine UInt8.toNat_inj.1 ?_
  rw [UInt32.toNat_toUInt8, toNat_shiftLeft_byte hk hk' hv]
  change v.toNat * 2 ^ k.toNat * 256 % 2 ^ 8 = 0
  omega

/-- What is moved up by eight bits comes back. -/
theorem shiftLeft_shiftRight_eight : v <<< k' >>> 8 = v <<< k := by
  have hpow : v.toNat * 2 ^ k.toNat < 2 ^ 32 := by
    have := Nat.mul_lt_mul_of_lt_of_le hv (Nat.pow_le_pow_right (by omega : 0 < 2)
      (show k.toNat ≤ 24 by omega)) (Nat.two_pow_pos _)
    omega
  refine UInt32.toNat_inj.1 ?_
  rw [UInt32.toNat_shiftRight, toNat_shiftLeft_byte hk hk' hv, Nat.shiftRight_eq_div_pow,
    UInt32.toNat_shiftLeft, Nat.mod_eq_of_lt (show k.toNat < 32 by omega), Nat.shiftLeft_eq,
    Nat.mod_eq_of_lt hpow]
  change v.toNat * 2 ^ k.toNat * 256 / 2 ^ 8 = v.toNat * 2 ^ k.toNat
  omega

theorem crcShift8_shiftLeft : crcShift8 (v <<< k') = v <<< k := by
  rw [crcShift8_of_low, shiftLeft_shiftRight_eight hk hk' hv]
  refine UInt32.toNat_inj.1 ?_
  rw [UInt32.toNat_and, toNat_shiftLeft_byte hk hk' hv]
  change v.toNat * 2 ^ k.toNat * 256 &&& (2 ^ 8 - 1) = 0
  rw [Nat.and_two_pow_sub_one_eq_mod]
  omega

end Shift

theorem toUInt32_toNat_lt (b : UInt8) : b.toUInt32.toNat < 256 := by
  rw [UInt8.toNat_toUInt32]
  exact b.toNat_lt

/-- **Four bytes of `crc32`** are thirty-two shifts of the remainder with their word added. -/
theorem crc32_step_word (s : UInt32) (a b c d : UInt8) :
    crcShift8 (crcShift8 (crcShift8 (crcShift8 (s ^^^ a.toUInt32) ^^^ b.toUInt32) ^^^
      c.toUInt32) ^^^ d.toUInt32) =
        crcShift8 (crcShift8 (crcShift8 (crcShift8 (s ^^^ word a b c d)))) := by
  have up : ∀ {x : UInt8} {k k' : UInt32}, k.toNat + 8 = k'.toNat → k'.toNat ≤ 24 →
      x.toUInt32 <<< k = crcShift8 (x.toUInt32 <<< k') := fun hk hk' =>
    (crcShift8_shiftLeft hk hk' (toUInt32_toNat_lt _)).symm
  have up0 : ∀ x : UInt8, x.toUInt32 = crcShift8 (x.toUInt32 <<< 8) := fun x => by
    rw [← up (k := 0) (by decide) (by decide), UInt32.shiftLeft_zero]
  have up8 : ∀ x : UInt8, x.toUInt32 <<< 8 = crcShift8 (x.toUInt32 <<< 16) := fun x =>
    up (by decide) (by decide)
  have up16 : ∀ x : UInt8, x.toUInt32 <<< 16 = crcShift8 (x.toUInt32 <<< 24) := fun x =>
    up (by decide) (by decide)
  rw [up0 b, up0 c, up0 d, ← crcShift8_xor, ← crcShift8_xor, up8 c, ← crcShift8_xor,
    ← crcShift8_xor, up8 d, ← crcShift8_xor, up16 d, ← crcShift8_xor]
  simp only [word, UInt32.xor_assoc]

theorem word_toUInt8 (a b c d : UInt8) : (word a b c d).toUInt8 = a := by
  rw [word, UInt32.toUInt8_xor, UInt32.toUInt8_xor, UInt32.toUInt8_xor,
    shiftLeft_toUInt8 (k := 0) (by decide) (by decide) (toUInt32_toNat_lt _),
    shiftLeft_toUInt8 (k := 8) (by decide) (by decide) (toUInt32_toNat_lt _),
    shiftLeft_toUInt8 (k := 16) (by decide) (by decide) (toUInt32_toNat_lt _)]
  simp

theorem word_shiftRight_eight (a b c d : UInt8) : word a b c d >>> 8 = word b c d 0 := by
  rw [word, UInt32.shiftRight_xor, UInt32.shiftRight_xor, UInt32.shiftRight_xor,
    toUInt32_shiftRight_eight,
    shiftLeft_shiftRight_eight (k := 0) (by decide) (by decide) (toUInt32_toNat_lt _),
    shiftLeft_shiftRight_eight (k := 8) (by decide) (by decide) (toUInt32_toNat_lt _),
    shiftLeft_shiftRight_eight (k := 16) (by decide) (by decide) (toUInt32_toNat_lt _), word]
  simp

theorem word_injective {a b c d a' b' c' d' : UInt8} (h : word a b c d = word a' b' c' d') :
    a = a' ∧ b = b' ∧ c = c' ∧ d = d' := by
  have h₁ := congrArg (fun x : UInt32 => x >>> 8) h
  simp only [word_shiftRight_eight] at h₁
  have h₂ := congrArg (fun x : UInt32 => x >>> 8) h₁
  simp only [word_shiftRight_eight] at h₂
  have h₃ := congrArg (fun x : UInt32 => x >>> 8) h₂
  simp only [word_shiftRight_eight] at h₃
  have low : ∀ {x y : UInt32}, x = y → x.toUInt8 = y.toUInt8 := fun h => congrArg _ h
  have e := low h
  have e₁ := low h₁
  have e₂ := low h₂
  have e₃ := low h₃
  rw [word_toUInt8, word_toUInt8] at e e₁ e₂ e₃
  exact ⟨e, e₁, e₂, e₃⟩

/-- The byte loop of `crc32`. -/
theorem crc32_eq (crc : UInt32) (buf : List UInt8) :
    crc32 crc buf = buf.foldl (fun c b => crcShift8 (c ^^^ b.toUInt32)) (crc ^^^ 0xffffffff) ^^^
      0xffffffff := by
  simp only [crc32, crc32_step]

theorem foldl_step_injective {l : List UInt8} {a b : UInt32}
    (h : l.foldl (fun c x => crcShift8 (c ^^^ x.toUInt32)) a =
      l.foldl (fun c x => crcShift8 (c ^^^ x.toUInt32)) b) : a = b := by
  induction l generalizing a b with
  | nil => exact h
  | cons x l ih => exact (UInt32.xor_left_inj _).1 (crcShift8_injective (ih h))

/-- **A changed word is noticed:** the checksums of two texts that differ in four bytes at one
place are different. -/
theorem crc32_word_injective {pre post : List UInt8} {a b c d a' b' c' d' : UInt8}
    (h : crc32 0 (pre ++ [a, b, c, d] ++ post) = crc32 0 (pre ++ [a', b', c', d'] ++ post)) :
    [a, b, c, d] = [a', b', c', d'] := by
  rw [crc32_eq, crc32_eq, UInt32.xor_left_inj] at h
  simp only [List.foldl_append] at h
  have h' := foldl_step_injective h
  simp only [List.foldl_cons, List.foldl_nil, crc32_step_word] at h'
  have hw := (UInt32.xor_right_inj _).1 (crcShift8_injective (crcShift8_injective
    (crcShift8_injective (crcShift8_injective h'))))
  obtain ⟨rfl, rfl, rfl, rfl⟩ := word_injective hw
  rfl

/-- The same for a field of four bytes. -/
theorem crc32_field_injective {pre post l l' : List UInt8} (hl : l.length = 4)
    (hl' : l'.length = 4) (h : crc32 0 (pre ++ (l ++ post)) = crc32 0 (pre ++ (l' ++ post))) :
    l = l' := by
  obtain ⟨a, b, c, d, rfl⟩ := List.length_eq_four.1 hl
  obtain ⟨a', b', c', d', rfl⟩ := List.length_eq_four.1 hl'
  rw [← List.append_assoc, ← List.append_assoc] at h
  exact crc32_word_injective h

end Cksum
end LittleKernel
