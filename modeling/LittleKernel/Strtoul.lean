/-
# Numbers in text

`lib/libc/atoi.c`: `strtoul`; `lib/libc/ctype.c`: `isspace`.

The digits are added up modulo `2 ^ w`, and after each of them it is looked whether the product
or the sum has wrapped.  From then on the result is `ULONG_MAX`, which is also how the loop knows
that a number was too large; a number that is `ULONG_MAX` is told from that by `errno` only, and
not at all where the sign is applied.

A pointer into the string is what is left of its bytes; at the end a character is a NUL.
-/

import LittleKernel.Lib.Bytes

namespace LittleKernel
namespace Strtoul

open Bytes

/-- The sizes of `unsigned long`. -/
inductive Long
  | ilp32
  | lp64

def Long.bits : Long → ℕ
  | .ilp32 => 32
  | .lp64 => 64

/-- `ULONG_MAX`. -/
def Long.max (w : Long) : ℕ := 2 ^ w.bits - 1

/-- `isspace`. -/
def isspace (c : UInt8) : Bool :=
  c == 32 || c == 12 || c == 10 || c == 13 || c == 9 || c == 11

/-- `v` of a character. -/
def digitValue (c : UInt8) : Option ℕ :=
  if 65 ≤ c ∧ c ≤ 90 then some (c.toNat - 65 + 10)
  else if 97 ≤ c ∧ c ≤ 122 then some (c.toNat - 97 + 10)
  else if 48 ≤ c ∧ c ≤ 57 then some (c.toNat - 48)
  else none

/-- The values that `strtoul` gives `errno`. -/
inductive Errno
  | einval
  | erange
  deriving DecidableEq

/-- What is returned, what is stored in `errno` if anything, and in `*endptr` if anything. -/
structure Result where
  value : ℕ
  errno : Option Errno
  endptr : Option (List UInt8)
  deriving DecidableEq

section Code

variable (w : Long)

/-- The loop of `strtoul`. -/
def digitLoop (base : ℕ) : ℕ → Option Errno → List UInt8 → ℕ × Option Errno × List UInt8
  | ret, errno, [] => (ret, errno, [])
  | ret, errno, c :: nptr =>
    match digitValue c with
    | none => (ret, errno, c :: nptr)
    | some v =>
      if base ≤ v then (ret, errno, c :: nptr)
      else
        let newRet := ret * base % 2 ^ w.bits
        if newRet / base ≠ ret ∨ (newRet + v) % 2 ^ w.bits < newRet ∨ ret = w.max then
          digitLoop base w.max (some .erange) nptr
        else digitLoop base ((newRet + v) % 2 ^ w.bits) errno nptr

/-- Behind the white space: whether there is a minus sign, and what follows the sign. -/
def sign : List UInt8 → Bool × List UInt8
  | 43 :: nptr => (false, nptr)
  | 45 :: nptr => (true, nptr)
  | nptr => (false, nptr)

/-- The base of the digits, and where they start. -/
def basePrefix (base : ℕ) (nptr : List UInt8) : ℕ × List UInt8 :=
  if (base = 0 ∨ base = 16) ∧ [48, 120] <+: nptr then (16, nptr.drop 2)
  else if base = 0 ∧ [48] <+: nptr then (8, nptr.drop 1)
  else if base = 0 then (10, nptr)
  else (base, nptr)

/-- `strtoul`. -/
def strtoul (nptr : CString) (base : ℤ) : Result :=
  if base < 0 ∨ base = 1 ∨ 36 < base then ⟨0, some .einval, none⟩
  else
    let (neg, nptr) := sign (nptr.bytes.dropWhile isspace)
    let (base, nptr) := basePrefix base.toNat nptr
    let (ret, errno, nptr) := digitLoop w base 0 none nptr
    ⟨if neg ∧ ret ≠ w.max then (2 ^ w.bits - ret) % 2 ^ w.bits else ret, errno, some nptr⟩

end Code

/-! ### What it should be -/

/-- A digit of numbers to some base. -/
def IsDigit (base : ℕ) (c : UInt8) : Bool := (digitValue c).any (· < base)

/-- The number that digits write behind those of `n`. -/
def valueOf (base n : ℕ) (ds : List UInt8) : ℕ :=
  ds.foldl (fun n c => n * base + (digitValue c).getD 0) n

/-- A hexadecimal prefix: a `0`, an `x` of either case and a digit. -/
def HexPrefix : List UInt8 → Bool
  | 48 :: x :: d :: _ => (x == 120 || x == 88) && IsDigit 16 d
  | _ => false

namespace Spec

/-- The base, and where the digits start; the `0` of an octal number is one of them. -/
def digits (base : ℕ) (text : List UInt8) : ℕ × List UInt8 :=
  if (base = 0 ∨ base = 16) ∧ HexPrefix text then (16, text.drop 2)
  else if base = 0 then (if [48] <+: text then 8 else 10, text)
  else (base, text)

/-- The longest run of digits, its number, and what follows. -/
def run (base : ℕ) (text : List UInt8) : List UInt8 :=
  (digits base text).2.takeWhile (IsDigit (digits base text).1)

def number (base : ℕ) (text : List UInt8) : ℕ := valueOf (digits base text).1 0 (run base text)

def rest (base : ℕ) (text : List UInt8) : List UInt8 :=
  (digits base text).2.dropWhile (IsDigit (digits base text).1)

/-- **`strtoul` as it should be.** -/
def strtoul (w : Long) (nptr : CString) (base : ℕ) : Result :=
  let (neg, text) := sign (nptr.bytes.dropWhile isspace)
  let n := number base text
  if run base text = [] then ⟨0, none, some nptr.bytes⟩
  else if w.max < n then ⟨w.max, some .erange, some (rest base text)⟩
  else ⟨if neg then (2 ^ w.bits - n) % 2 ^ w.bits else n, none, some (rest base text)⟩

end Spec

/-- **The strings that are read as they should be**, `text` being what follows the white space
and the sign: if there is no number, nothing is in front of it; in base 0 or 16 a `0x` is there
exactly if a hexadecimal prefix is; and a number behind a minus sign is not `ULONG_MAX`. -/
def Meets (w : Long) (nptr : CString) (base : ℕ) : Prop :=
  let (neg, text) := sign (nptr.bytes.dropWhile isspace)
  (Spec.run base text = [] → text = nptr.bytes) ∧
    (base = 0 ∨ base = 16 → ([48, 120] <+: text ↔ HexPrefix text)) ∧
    (neg → Spec.number base text ≠ w.max)

/-! ### The loop -/

theorem Long.max_pos (w : Long) : 36 < w.max ∧ w.max + 1 = 2 ^ w.bits := by
  cases w <;> decide

variable {base : ℕ}

/-- **What the loop has after some digits whose number is `n`**: it goes on to that of all
digits, or to `ULONG_MAX` if that is less, and `errno` says which. -/
theorem digitLoop_eq (w : Long) (hbase : 2 ≤ base ∧ base ≤ 36) (n : ℕ)
    (l : List UInt8) :
    digitLoop w base (min n w.max) (if w.max < n then some .erange else none) l =
      (min (valueOf base n (l.takeWhile (IsDigit base))) w.max,
        if w.max < valueOf base n (l.takeWhile (IsDigit base)) then some .erange else none,
        l.dropWhile (IsDigit base)) := by
  obtain ⟨hmax, hpow⟩ := w.max_pos
  induction l generalizing n with
  | nil => rfl
  | cons c l ih =>
    rw [digitLoop]
    cases hv : digitValue c with
    | none =>
      have hc : IsDigit base c = false := by rw [IsDigit, hv]; rfl
      simp only [List.takeWhile_cons, List.dropWhile_cons, hc]
      rfl
    | some v =>
      by_cases hle : base ≤ v
      · have hc : IsDigit base c = false := by simp [IsDigit, hv, hle]
        simp only [List.takeWhile_cons, List.dropWhile_cons, hc, if_pos hle]
        rfl
      · have hc : IsDigit base c = true := by simp [IsDigit, hv]; omega
        simp only [List.takeWhile_cons, List.dropWhile_cons, hc, if_neg hle, if_true]
        have hstep : valueOf base n (c :: l.takeWhile (IsDigit base)) =
            valueOf base (n * base + v) (l.takeWhile (IsDigit base)) := by
          simp only [valueOf, List.foldl_cons, hv, Option.getD_some]
        rw [hstep, ← ih (n * base + v), ← hpow]
        have hmul : n ≤ n * base := Nat.le_mul_of_pos_right n (by omega)
        by_cases hbig : w.max < n
        · -- it was too large before
          rw [Nat.min_eq_right hbig.le, if_pos (.inr (.inr rfl)), if_pos (by omega),
            Nat.min_eq_right (by omega)]
        rw [Nat.min_eq_left (by omega)]
        by_cases hfits : n * base + v ≤ w.max
        · have hne : n ≠ w.max := by
            rintro rfl
            have := Nat.mul_le_mul_left w.max hbase.1
            omega
          rw [Nat.mod_eq_of_lt (by omega), Nat.mod_eq_of_lt (by omega),
            Nat.mul_div_cancel _ (by omega), if_neg (by omega), if_neg hbig,
            if_neg (by omega), Nat.min_eq_left hfits]
        · rw [if_pos, if_pos (by omega), Nat.min_eq_right (by omega)]
          by_cases hprod : n * base ≤ w.max
          · -- the sum wraps
            rw [Nat.mod_eq_of_lt (by omega), Nat.mod_eq_sub_mod (by omega),
              Nat.mod_eq_of_lt (by omega)]
            omega
          · -- the product wraps
            refine .inl (Nat.ne_of_lt (Nat.div_lt_of_lt_mul ?_))
            rw [Nat.mul_comm base n]
            exact Nat.lt_of_lt_of_le (Nat.mod_lt _ (by omega)) (by omega)

/-- The value and the end of a number, exactly. -/
theorem strtoul_eq (w : Long) (nptr : CString)
    (hbase : base = 0 ∨ (2 ≤ base ∧ base ≤ 36)) :
    strtoul w nptr base =
      let (neg, text) := sign (nptr.bytes.dropWhile isspace)
      let (b, ds) := basePrefix base text
      let n := valueOf b 0 (ds.takeWhile (IsDigit b))
      ⟨if neg ∧ n < w.max then (2 ^ w.bits - n) % 2 ^ w.bits else min n w.max,
        if w.max < n then some .erange else none, some (ds.dropWhile (IsDigit b))⟩ := by
  have hb (text : List UInt8) : 2 ≤ (basePrefix base text).1 ∧ (basePrefix base text).1 ≤ 36 := by
    unfold basePrefix
    split_ifs <;> (simp only; omega)
  rw [strtoul, if_neg (by omega), Int.toNat_natCast]
  simp only
  have hloop := digitLoop_eq w (hb (sign (nptr.bytes.dropWhile isspace)).2) 0
    (basePrefix base (sign (nptr.bytes.dropWhile isspace)).2).2
  rw [Nat.zero_min, if_neg (Nat.not_lt_zero _)] at hloop
  rw [hloop]
  simp only [Result.mk.injEq, and_true]
  generalize valueOf _ 0 _ = n
  by_cases hn : n < w.max
  · rw [Nat.min_eq_left hn.le]
    simp only [hn, hn.ne, ne_eq, not_false_eq_true]
  · rw [Nat.min_eq_right (by omega)]
    simp only [hn, ne_eq, not_true_eq_false, and_false, if_false]

/-! ### The prefix -/

variable {text : List UInt8}

/-- **Where a `0x` is there exactly if a prefix is, the code finds the number.** -/
theorem basePrefix_agrees (h : base = 0 ∨ base = 16 → ([48, 120] <+: text ↔ HexPrefix text)) :
    valueOf (basePrefix base text).1 0
        ((basePrefix base text).2.takeWhile (IsDigit (basePrefix base text).1)) =
          Spec.number base text ∧
      (basePrefix base text).2.dropWhile (IsDigit (basePrefix base text).1) =
        Spec.rest base text := by
  have hhex : ((base = 0 ∨ base = 16) ∧ [48, 120] <+: text) ↔
      ((base = 0 ∨ base = 16) ∧ HexPrefix text = true) :=
    and_congr_right h
  unfold Spec.number Spec.rest Spec.run Spec.digits basePrefix
  simp only [hhex]
  by_cases h₁ : (base = 0 ∨ base = 16) ∧ HexPrefix text = true
  · simp only [if_pos h₁, and_self]
  · simp only [if_neg h₁]
    by_cases h₂ : base = 0 ∧ [48] <+: text
    · -- the octal prefix is the first digit
      obtain ⟨rfl, rest, rfl⟩ := h₂
      have hzero : IsDigit 8 48 = true := by decide
      simp [hzero, valueOf, digitValue]
    · by_cases h₀ : base = 0
      · simp only [h₀, true_and] at h₂
        simp only [h₀, h₂, and_false, if_true, if_false, and_self]
      · simp only [h₀, false_and, if_false, and_self]

/-- Behind a hexadecimal prefix there is a digit. -/
theorem exists_of_hexPrefix (h : HexPrefix text = true) :
    ∃ x d tail, text = 48 :: x :: d :: tail ∧ (x = 120 ∨ x = 88) ∧ IsDigit 16 d = true := by
  unfold HexPrefix at h
  split at h
  · simp only [Bool.and_eq_true, Bool.or_eq_true, beq_iff_eq] at h
    exact ⟨_, _, _, rfl, h⟩
  · cases h

/-- Elsewhere it does not stop where the number ends. -/
theorem basePrefix_differs (hbase : base = 0 ∨ base = 16)
    (h : ¬ ([48, 120] <+: text ↔ HexPrefix text)) :
    Spec.run base text ≠ [] ∧
      (basePrefix base text).2.dropWhile (IsDigit (basePrefix base text).1) ≠
        Spec.rest base text := by
  have hzero : IsDigit 8 48 = true ∧ IsDigit 16 48 = true := by decide
  have hx : IsDigit 8 120 = false ∧ IsDigit 16 120 = false ∧ IsDigit 8 88 = false ∧
      IsDigit 16 88 = false := by decide
  by_cases hlow : [48, 120] <+: text
  · -- the code stops behind the `x`, where there is no digit
    have hno : ¬ HexPrefix text = true := fun hp => h (iff_of_true hlow hp)
    obtain ⟨tail, rfl⟩ := hlow
    have htail : tail.dropWhile (IsDigit 16) = tail := by
      cases tail with
      | nil => rfl
      | cons d tail =>
        have hd : IsDigit 16 d = false := by simpa [HexPrefix] using hno
        rw [List.dropWhile_cons, hd]
        rfl
    have hcode : basePrefix base ([48, 120] ++ tail) = (16, tail) :=
      if_pos ⟨hbase, tail, rfl⟩
    have hspec : Spec.digits base ([48, 120] ++ tail) =
        (if base = 0 then 8 else 16, 48 :: 120 :: tail) := by
      rw [Spec.digits, if_neg fun hp => hno hp.2]
      rcases hbase with rfl | rfl <;> simp
    rw [hcode, htail, Spec.run, Spec.rest, hspec]
    rcases hbase with rfl | rfl <;> simp [hzero, hx]
  · -- it stops in front of the `X`
    have hp : HexPrefix text = true := by
      by_contra hp
      exact h (iff_of_false hlow hp)
    obtain ⟨x, d, tail, rfl, hcase, hd⟩ := exists_of_hexPrefix hp
    obtain rfl : x = 88 := by
      rcases hcase with rfl | rfl
      · exact absurd ⟨d :: tail, rfl⟩ hlow
      · rfl
    have hcode : (basePrefix base (48 :: 88 :: d :: tail)).2.dropWhile
        (IsDigit (basePrefix base (48 :: 88 :: d :: tail)).1) = 88 :: d :: tail := by
      rcases hbase with rfl | rfl <;> simp [basePrefix, hzero, hx]
    have hspec : Spec.digits base (48 :: 88 :: d :: tail) = (16, d :: tail) := if_pos ⟨hbase, hp⟩
    rw [hcode, Spec.run, Spec.rest, hspec]
    simp only [List.takeWhile_cons, List.dropWhile_cons, hd, if_true]
    refine ⟨List.cons_ne_nil _ _, fun heq => ?_⟩
    have hle := (List.dropWhile_sublist (IsDigit 16) (l := tail)).length_le
    rw [← heq] at hle
    simp only [List.length_cons] at hle
    omega

theorem Spec.of_run_nil (h : run base text = []) :
    number base text = 0 ∧ rest base text = text := by
  have hno : ¬ ((base = 0 ∨ base = 16) ∧ HexPrefix text = true) := by
    rintro ⟨hbase, hp⟩
    obtain ⟨x, d, tail, rfl, -, hd⟩ := exists_of_hexPrefix hp
    rw [run, digits, if_pos ⟨hbase, hp⟩] at h
    simp [hd] at h
  have htext : (digits base text).2 = text := by
    rw [digits, if_neg hno]
    split_ifs <;> rfl
  refine ⟨by rw [number, h]; rfl, ?_⟩
  have hsplit := List.takeWhile_append_dropWhile (p := IsDigit (digits base text).1)
    (l := (digits base text).2)
  rw [run] at h
  rw [h, List.nil_append, htext] at hsplit
  rw [rest, htext, hsplit]

/-- **Exactness of `strtoul`.** -/
theorem strtoul_exact_iff (w : Long) (nptr : CString) (base : ℕ)
    (hbase : base = 0 ∨ (2 ≤ base ∧ base ≤ 36)) :
    strtoul w nptr base = Spec.strtoul w nptr base ↔ Meets w nptr base := by
  obtain ⟨hmax, hpow⟩ := w.max_pos
  rw [strtoul_eq w nptr hbase, Spec.strtoul, Meets]
  rcases sign (nptr.bytes.dropWhile isspace) with ⟨neg, text⟩
  simp only
  by_cases hhex : base = 0 ∨ base = 16 → ([48, 120] <+: text ↔ HexPrefix text = true)
  · obtain ⟨hnumber, hrest⟩ := basePrefix_agrees hhex
    rw [hnumber, hrest]
    by_cases hrun : Spec.run base text = []
    · -- nothing to read
      obtain ⟨hzero, htext⟩ := Spec.of_run_nil hrun
      rw [hzero, htext, if_pos hrun]
      have hvalue : (2 ^ w.bits - 0) % 2 ^ w.bits = 0 := by simp
      simp only [hvalue, Nat.zero_min, ite_self, Nat.not_lt_zero, if_false, Result.mk.injEq,
        true_and, Option.some.injEq]
      exact ⟨fun h => ⟨fun _ => h, hhex, fun _ => by omega⟩, fun h => h.1 hrun⟩
    · rw [if_neg hrun]
      generalize Spec.number base text = n
      rcases Nat.lt_trichotomy n w.max with hn | rfl | hn
      · -- the value is exact
        rw [Nat.min_eq_left hn.le]
        simp only [hn, hn.not_gt, and_true, if_false]
        exact iff_of_true trivial ⟨fun h => absurd h hrun, hhex, fun _ => hn.ne⟩
      · -- it is `ULONG_MAX`, whatever the sign is
        simp only [Nat.lt_irrefl, and_false, if_false, Nat.min_self, Result.mk.injEq, and_true]
        have hone : (2 ^ w.bits - w.max) % 2 ^ w.bits = 1 := by
          rw [← hpow, Nat.add_sub_cancel_left]
          exact Nat.mod_eq_of_lt (by omega)
        rw [hone]
        cases neg with
        | false => simpa using ⟨fun h => absurd h hrun, hhex⟩
        | true =>
          refine iff_of_false (fun h => ?_) fun h => h.2.2 rfl rfl
          rw [if_pos rfl] at h
          omega
      · -- it is too large
        rw [Nat.min_eq_right hn.le]
        simp only [hn, hn.not_gt, and_false, if_true, if_false]
        exact iff_of_true trivial ⟨fun h => absurd h hrun, hhex, fun _ => hn.ne'⟩
  · -- the end is another one
    have hbase' : base = 0 ∨ base = 16 := by
      by_contra hb
      exact hhex fun h => absurd h hb
    obtain ⟨hrun, hends⟩ := basePrefix_differs hbase' fun h => hhex fun _ => h
    refine iff_of_false (fun h => hends ?_) fun h => hhex h.2.1
    rw [if_neg hrun] at h
    have hend := congrArg Result.endptr h
    split_ifs at hend <;> exact Option.some.inj hend

/-- ` -0x2Az` in base 0: a blank, a sign, a prefix, a number and a letter that ends it. -/
theorem strtoul_exact_iff_fortyTwo :
    strtoul .lp64 ⟨[32, 45, 48, 120, 50, 65, 122], by decide⟩ 0 =
        Spec.strtoul .lp64 ⟨[32, 45, 48, 120, 50, 65, 122], by decide⟩ 0 ∧
      strtoul .lp64 ⟨[32, 45, 48, 120, 50, 65, 122], by decide⟩ 0 =
        ⟨2 ^ 64 - 42, none, some [122]⟩ :=
  ⟨(strtoul_exact_iff .lp64 ⟨[32, 45, 48, 120, 50, 65, 122], by decide⟩ 0 (by decide)).2
    ⟨by decide, fun _ => by decide, fun _ => by decide⟩, by decide⟩

/-- `-4294967295` is not 1 where `ULONG_MAX` is 4294967295. -/
theorem strtoul_inexact : ¬ ∀ (w : Long) (nptr : CString) (base : ℕ),
    base = 0 ∨ (2 ≤ base ∧ base ≤ 36) → strtoul w nptr base = Spec.strtoul w nptr base := by
  intro h
  have hneg := h .ilp32 ⟨[45, 52, 50, 57, 52, 57, 54, 55, 50, 57, 53], by decide⟩ 10 (by decide)
  exact absurd hneg (by decide)

end Strtoul
end LittleKernel
