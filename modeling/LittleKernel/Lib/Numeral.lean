/-
# Numerals

The digits of a natural number in some base, the most significant one first.  Zero has one digit.
-/

import Mathlib.Data.Nat.Digits.Lemmas

namespace Numeral

/-- The digits of `n` in base `b`. -/
def numeral (b n : ℕ) : List ℕ := if n = 0 then [0] else (Nat.digits b n).reverse

variable {b n : ℕ}

theorem numeral_of_lt (h : n < b) : numeral b n = [n] := by
  unfold numeral
  split_ifs with h0
  · rw [h0]
  · rw [Nat.digits_of_lt b n h0 h]
    rfl

/-- The last digit of a numeral. -/
theorem numeral_of_le (hb : 1 < b) (h : b ≤ n) : numeral b n = numeral b (n / b) ++ [n % b] := by
  have hdiv : n / b ≠ 0 := (Nat.div_pos h (by omega)).ne'
  rw [numeral, if_neg (by omega), Nat.digits_def' hb (by omega), List.reverse_cons, numeral,
    if_neg hdiv]

/-- A rule for what is shown digit by digit. -/
theorem induction (hb : 1 < b) {P : ℕ → Prop} (small : ∀ n < b, P n)
    (step : ∀ n, b ≤ n → P (n / b) → P n) (n : ℕ) : P n := by
  induction n using Nat.strong_induction_on with
  | _ n ih =>
    rcases Nat.lt_or_ge n b with h | h
    · exact small n h
    · exact step n h (ih _ (Nat.div_lt_self (by omega) hb))

theorem length_pos (b n : ℕ) : 0 < (numeral b n).length := by
  unfold numeral
  split_ifs with h0
  · exact Nat.one_pos
  · rw [List.length_reverse]
    exact List.length_pos_iff.2 (Nat.digits_ne_nil_iff_ne_zero.2 h0)

theorem length_le {k : ℕ} (hb : 1 < b) (hk : 0 < k) (h : n < b ^ k) :
    (numeral b n).length ≤ k := by
  unfold numeral
  split_ifs with h0
  · exact hk
  · rw [List.length_reverse]
    exact (Nat.digits_length_le_iff hb n).2 h

theorem lt_base {d : ℕ} (hb : 1 < b) (hd : d ∈ numeral b n) : d < b := by
  unfold numeral at hd
  split_ifs at hd with h0
  · rw [List.mem_singleton.1 hd]
    omega
  · exact Nat.digits_lt_base hb (List.mem_reverse.1 hd)

end Numeral
