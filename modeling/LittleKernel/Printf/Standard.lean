/-
# Integer conversions and the C standard

`lib/libc/printf.c`: `_printf_engine` on the conversions `d`, `i`, `u`, `x`, `X` and `p`, and
`vsnprintf`.

The text of a conversion is its sign or prefix and its digits, with padding.  Two behaviours of
the standard have no place in the engine: a left justified number has no sign, and a prefix is
written before the padding and does not count for the width.
-/

import LittleKernel.Printf.Engine

namespace LittleKernel
namespace Printf

open Bytes Word Numeral

/-! ### Conversion specifications -/

/-- The conversions of integers. -/
inductive Conv
  | d
  | i
  | u
  | x
  | X
  | p
  deriving DecidableEq

/-- The length modifiers. -/
inductive Length
  | int
  | hh
  | h
  | l
  | ll
  | j
  | z
  | t
  deriving DecidableEq

/-- The flags. -/
inductive Flag
  | minus
  | plus
  | space
  | zero
  | sharp
  deriving DecidableEq

/-- A conversion specification; the width 0 is none. -/
structure Spec where
  flags : List Flag
  width : ℕ
  length : Length
  conv : Conv

def Conv.byte : Conv → UInt8
  | .d => ch 'd'
  | .i => ch 'i'
  | .u => ch 'u'
  | .x => ch 'x'
  | .X => ch 'X'
  | .p => ch 'p'

def Length.bytes : Length → List UInt8
  | .int => []
  | .hh => [ch 'h', ch 'h']
  | .h => [ch 'h']
  | .l => [ch 'l']
  | .ll => [ch 'l', ch 'l']
  | .j => [ch 'j']
  | .z => [ch 'z']
  | .t => [ch 't']

def Flag.byte : Flag → UInt8
  | .minus => ch '-'
  | .plus => ch '+'
  | .space => ch ' '
  | .zero => ch '0'
  | .sharp => ch '#'

/-- Digits as characters. -/
def decimal (n : ℕ) : List UInt8 := (numeral 10 n).map fun d => UInt8.ofNat (d + 48)

def hexadecimal (caps : Bool) (n : ℕ) : List UInt8 := (numeral 16 n).map (hextable caps)

/-- A specification as it stands in a format. -/
def Spec.bytes (s : Spec) : List UInt8 :=
  ch '%' :: (s.flags.map Flag.byte ++ ((if s.width = 0 then [] else decimal s.width) ++
    (s.length.bytes ++ [s.conv.byte])))

/-! ### The text that the standard gives them -/

/-- The width of the argument's type.  The standard has no modifiers for `p`; `ll` only matters
where it is longer than a pointer. -/
def Spec.bits (t : Target) (s : Spec) : ℕ :=
  match s.conv, s.length with
  | .p, .ll => 64
  | .p, _ => t.longBits
  | _, .int => 32
  | _, .hh => 8
  | _, .h => 16
  | _, .l => t.longBits
  | _, .ll => 64
  | _, .j => 64
  | _, .z => t.longBits
  | _, .t => t.longBits

/-- The value of the argument in its type. -/
def Spec.value (t : Target) (s : Spec) (a : Arg) : ℤ :=
  match s.conv with
  | .d | .i => a.toInt.bmod (2 ^ s.bits t)
  | _ => a.toInt % 2 ^ s.bits t

/-- The sign, or the prefix. -/
def Spec.lead (t : Target) (s : Spec) (a : Arg) : List UInt8 :=
  match s.conv with
  | .d | .i =>
    if s.value t a < 0 then [ch '-']
    else if .plus ∈ s.flags then [ch '+']
    else if .space ∈ s.flags then [ch ' ']
    else []
  | .u => []
  | .x => if .sharp ∈ s.flags ∧ s.value t a ≠ 0 then [ch '0', ch 'x'] else []
  | .X => if .sharp ∈ s.flags ∧ s.value t a ≠ 0 then [ch '0', ch 'X'] else []
  | .p => [ch '0', ch 'x']

/-- The digits of the value. -/
def Spec.digits (t : Target) (s : Spec) (a : Arg) : List UInt8 :=
  match s.conv with
  | .d | .i | .u => decimal (s.value t a).natAbs
  | .x | .p => hexadecimal false (s.value t a).natAbs
  | .X => hexadecimal true (s.value t a).natAbs

/-- Padded on the right, with zeros behind the sign or prefix, or on the left. -/
def padded (flags : List Flag) (width : ℕ) (lead digits : List UInt8) : List UInt8 :=
  let pad := width - (lead.length + digits.length)
  if .minus ∈ flags then lead ++ digits ++ List.replicate pad (ch ' ')
  else if .zero ∈ flags then lead ++ List.replicate pad (ch '0') ++ digits
  else List.replicate pad (ch ' ') ++ lead ++ digits

/-- **The text of a conversion.** -/
def Spec.standard (t : Target) (s : Spec) (a : Arg) : List UInt8 :=
  padded s.flags s.width (s.lead t a) (s.digits t a)

/-- **The engine outputs it**, whatever follows in the format. -/
def EmitsStandard (t : Target) (s : Spec) (a : Arg) : Prop :=
  ∀ rest args, emitted (outputs t (.text []) (s.bytes ++ rest) (a :: args)) =
    s.standard t a ++ emitted (outputs t (.text []) rest args)

/-- **When it does**: the width has 32 bits, a left justified number has no sign, a sign is not
asked for where there is none (a blank in the padding is not seen), and there is a digit in every
place that a width asks for behind a prefix. -/
def Spec.Meets (t : Target) (s : Spec) (a : Arg) : Prop :=
  s.width < 2 ^ 32 ∧
    match s.conv with
    | .d | .i => .minus ∈ s.flags → 0 ≤ s.value t a ∧ .plus ∉ s.flags ∧ .space ∉ s.flags
    | .u => .minus ∈ s.flags ∨ .plus ∉ s.flags ∧ (.space ∉ s.flags ∨
        .zero ∉ s.flags ∧ (numeral 10 (s.value t a).natAbs).length < s.width)
    | .x | .X => .sharp ∈ s.flags →
        s.value t a ≠ 0 ∧ s.width ≤ (numeral 16 (s.value t a).natAbs).length
    | .p => s.width ≤ (numeral 16 (s.value t a).natAbs).length

/-! ### Numbers -/

theorem decimalLoop_eq {pos n : ℕ} (hpos : 0 < pos) (h : n < 10 ^ pos) (s : List UInt8) :
    decimalLoop pos n s = decimal n ++ s := by
  induction pos generalizing n s with
  | zero => omega
  | succ pos ih =>
    rw [decimalLoop]
    split_ifs with hn
    · have hpos' : 0 < pos := by
        rcases pos with _ | pos
        · omega
        · omega
      rw [ih hpos' (by rw [pow_succ] at h; omega), decimal, decimal,
        numeral_of_le (by omega) hn, List.map_append, List.append_assoc]
      rfl
    · rw [decimal, numeral_of_lt (by omega)]
      rfl

theorem hexLoop_eq {caps : Bool} {pos n : ℕ} (hpos : 0 < pos) (h : n < 16 ^ pos)
    (s : List UInt8) : hexLoop caps pos n s = hexadecimal caps n ++ s := by
  induction pos generalizing n s with
  | zero => omega
  | succ pos ih =>
    rw [hexLoop]
    split_ifs with hn
    · have hpos' : 0 < pos := by
        rcases pos with _ | pos
        · omega
        · omega
      rw [ih hpos' (by rw [pow_succ] at h; omega), hexadecimal, hexadecimal,
        numeral_of_le (by omega) (by omega : 16 ≤ n), List.map_append, List.append_assoc]
      rfl
    · rw [hexadecimal, numeral_of_lt (by omega), Nat.mod_eq_of_lt (by omega)]
      rfl

theorem bits_le (t : Target) (flags : Flags) : 8 ≤ t.bits flags ∧ t.bits flags ≤ 64 := by
  have hlong : t.longBits = 64 ∨ t.longBits = 32 := by
    unfold Target.longBits
    split_ifs <;> simp
  unfold Target.bits
  split_ifs <;> omega

theorem two_pow_bits_le (t : Target) (flags : Flags) : 2 ^ t.bits flags ≤ 2 ^ 64 :=
  Nat.pow_le_pow_right (by omega) (bits_le t flags).2

/-- **`longlong_to_string` of a signed number**: the digits of its absolute value, and its
sign. -/
theorem longlongToString_signed (t : Target) (flags : Flags) (hs : flags.signed = true) (a : Arg) :
    longlongToString (t.readSigned flags a) flags =
      (decimal (a.toInt.bmod (2 ^ t.bits flags)).natAbs,
        if a.toInt.bmod (2 ^ t.bits flags) < 0 then some (ch '-')
        else if flags.showsign then some (ch '+')
        else if flags.blankpos then some (ch ' ')
        else none) := by
  have hbits := bits_le t flags
  have hpow := two_pow_bits_le t flags
  have hlow := Int.le_bmod (x := a.toInt) (Nat.two_pow_pos (t.bits flags))
  have hhigh := Int.bmod_lt (x := a.toInt) (Nat.two_pow_pos (t.bits flags))
  rw [longlongToString, Target.readSigned, hs, Bool.true_and]
  generalize a.toInt.bmod (2 ^ t.bits flags) = v at *
  generalize 2 ^ t.bits flags = m at *
  have hneg : 2 ^ 63 ≤ (v % 2 ^ 64).toNat ↔ v < 0 := by omega
  have habs : (if v < 0 then u64 (2 ^ 64 - (v % 2 ^ 64).toNat) else (v % 2 ^ 64).toNat) =
      v.natAbs := by
    unfold u64
    split_ifs <;> omega
  simp only [hneg, decide_eq_true_eq, habs]
  rw [decimalLoop_eq (by decide) (by rw [numBufferLen]; omega), List.append_nil]

theorem unsigned_lt (t : Target) (flags : Flags) (a : Arg) :
    (a.toInt % 2 ^ t.bits flags).natAbs < 2 ^ 64 := by
  have hpow := two_pow_bits_le t flags
  have hpos : (0 : ℤ) < 2 ^ t.bits flags := by positivity
  have h0 := Int.emod_nonneg a.toInt hpos.ne'
  have hlt := Int.emod_lt_of_pos a.toInt hpos
  have hcast : ((2 ^ t.bits flags : ℕ) : ℤ) = 2 ^ t.bits flags := by push_cast; rfl
  generalize a.toInt % 2 ^ t.bits flags = v at *
  omega

theorem readUnsigned_eq (t : Target) (flags : Flags) (a : Arg) :
    t.readUnsigned flags a = (a.toInt % 2 ^ t.bits flags).natAbs := by
  have hpos : (0 : ℤ) < 2 ^ t.bits flags := by positivity
  have h0 := Int.emod_nonneg a.toInt hpos.ne'
  rw [Target.readUnsigned]
  omega

theorem longlongToString_unsigned (t : Target) {flags : Flags} (hs : flags.signed = false)
    (a : Arg) : longlongToString (t.readUnsigned flags a) flags =
      (decimal (a.toInt % 2 ^ t.bits flags).natAbs,
        if flags.showsign then some (ch '+') else if flags.blankpos then some (ch ' ')
        else none) := by
  have hlt := unsigned_lt t flags a
  rw [longlongToString, readUnsigned_eq, hs, Bool.false_and,
    decimalLoop_eq (by decide) (by simp only [Bool.false_eq_true, if_false, numBufferLen]; omega),
    List.append_nil]
  rfl

theorem longlongToHexstring_eq (t : Target) (flags : Flags) (a : Arg) :
    longlongToHexstring (t.readUnsigned flags a) flags =
      hexadecimal flags.caps (a.toInt % 2 ^ t.bits flags).natAbs := by
  have hlt := unsigned_lt t flags a
  rw [longlongToHexstring, readUnsigned_eq,
    hexLoop_eq (by decide) (by rw [numBufferLen]; omega), List.append_nil]

theorem length_decimal (n : ℕ) : (decimal n).length = (numeral 10 n).length := List.length_map _

theorem length_hexadecimal (caps : Bool) (n : ℕ) :
    (hexadecimal caps n).length = (numeral 16 n).length := List.length_map _

theorem digit_ge (d : ℕ) (hd : d < 10) : 48 ≤ UInt8.ofNat (d + 48) := by
  revert d
  decide

/-- A digit is none of the characters that stand before a number. -/
theorem decimal_cons (n : ℕ) : ∃ c l, decimal n = c :: l ∧ 48 ≤ c := by
  obtain ⟨c, l, hcl⟩ : ∃ c l, decimal n = c :: l :=
    List.exists_cons_of_length_pos (by rw [length_decimal]; exact length_pos 10 n)
  refine ⟨c, l, hcl, ?_⟩
  have hmem : c ∈ decimal n := by rw [hcl]; exact List.mem_cons_self
  obtain ⟨d, hd, rfl⟩ := List.mem_map.1 hmem
  exact digit_ge d (lt_base (by omega) hd)

/-! ### What is output -/

theorem emitted_append (l m : List Event) : emitted (l ++ m) = emitted l ++ emitted m := by
  induction l with
  | nil => rfl
  | cons e l ih =>
    cases e with
    | output s => rw [List.cons_append, emitted, emitted, ih, List.append_assoc]
    | store flags => rw [List.cons_append, emitted, emitted, ih]

theorem emitted_outputChars (n : ℕ) (c : UInt8) :
    emitted (outputChars n c) = List.replicate n c := by
  induction n with
  | zero => rfl
  | succ n ih => rw [outputChars, List.replicate_succ, emitted, ← outputChars, ih]; rfl

/-- The text that is seen of what came before is output first. -/
theorem emitted_text (t : Target) (s fmt : List UInt8) (args : List Arg) :
    emitted (outputs t (.text s) fmt args) = s ++ emitted (outputs t (.text []) fmt args) := by
  induction fmt generalizing s with
  | nil => simp [outputs, emitted]
  | cons c fmt ih =>
    rw [outputs, outputs]
    split_ifs with hc
    · simp [emitted]
    · rw [ih, ih ([] ++ [c])]
      simp

/-- `_output_string`, as text. -/
theorem emitted_outputString (flags : Flags) (num : ℕ) (sign : Option UInt8) (s : List UInt8) :
    emitted (outputString flags num sign s) =
      if flags.leftformat then s ++ List.replicate (num - u32 s.length) (ch ' ')
      else
        (if flags.leadzero then sign.toList else []) ++
          List.replicate ((if sign.isSome ∧ 0 < num then num - 1 else num) - s.length)
            (if flags.leadzero then ch '0' else ch ' ') ++
          (if flags.leadzero then [] else sign.toList) ++ s := by
  have hsign : emitted (sign.toList.map fun c => .output [c]) = sign.toList := by
    cases sign <;> rfl
  unfold outputString
  split_ifs <;>
    simp [emitted, emitted_append, emitted_outputChars, hsign]

/-- **Without a sign to be lost the text is padded as it should be.** -/
theorem emitted_eq_padded {flags : Flags} {fl : List Flag} {num : ℕ} {sign : Option UInt8}
    {s : List UInt8} (hleft : flags.leftformat = decide (.minus ∈ fl))
    (hzero : flags.leadzero = decide (.zero ∈ fl)) (hs : s.length < 2 ^ 32)
    (hsign : .minus ∈ fl → sign = none) :
    emitted (outputString flags num sign s) = padded fl num sign.toList s := by
  rw [emitted_outputString, hleft, hzero, u32_of_lt hs]
  unfold padded
  by_cases hminus : .minus ∈ fl
  · rw [hsign hminus]
    simp [hminus]
  · have hpad : (if sign.isSome ∧ 0 < num then num - 1 else num) - s.length =
        num - (sign.toList.length + s.length) := by
      cases sign with
      | none => simp
      | some c =>
        simp only [Option.isSome_some, true_and, Option.toList_some, List.length_singleton]
        split_ifs <;> omega
    rw [hpad]
    by_cases hz : .zero ∈ fl <;> simp [hminus, hz]

theorem length_padded (fl : List Flag) (width : ℕ) (lead digits : List UInt8) :
    (padded fl width lead digits).length = max width (lead.length + digits.length) := by
  unfold padded
  split_ifs <;> simp only [List.length_append, List.length_replicate] <;> omega

theorem length_outputString_le (flags : Flags) (num : ℕ) (sign : Option UInt8) (s : List UInt8) :
    (emitted (outputString flags num sign s)).length ≤ num + s.length + 1 := by
  have hsign : sign.toList.length ≤ 1 := by cases sign <;> simp
  rw [emitted_outputString]
  split_ifs <;> simp only [List.length_append, List.length_replicate, List.length_nil] <;> omega

/-! ### What is read of a specification -/

section Parse

variable {t : Target}

/-- The flags of the engine, with what the flags of a specification set. -/
def baseFlags (minus plus space zero sharp : Bool) : Flags :=
  { leftformat := minus, showsign := plus, blankpos := space, leadzero := zero, alt := sharp }

def Flags.add (flags : Flags) : Flag → Flags
  | .minus => { flags with leftformat := true }
  | .plus => { flags with showsign := true }
  | .space => { flags with blankpos := true }
  | .zero => { flags with leadzero := true }
  | .sharp => { flags with alt := true }

def Flags.withLength (flags : Flags) : Length → Flags
  | .int => flags
  | .hh => { flags with half := true, halfhalf := true }
  | .h => { flags with half := true }
  | .l => { flags with long := true }
  | .ll => { flags with long := true, longlong := true }
  | .j => { flags with intmax := true }
  | .z => { flags with sizet := true }
  | .t => { flags with ptrdiff := true }

theorem outputs_more {c : UInt8} {flags flags' : Flags} {num num' : ℕ} {args : List Arg}
    (h : nextFormat t c flags num args = .more flags' num') (rest : List UInt8) :
    outputs t (.format flags num) (c :: rest) args = outputs t (.format flags' num') rest args := by
  rw [outputs, h]

theorem outputs_flags (l : List Flag) (flags : Flags) (rest : List UInt8) (args : List Arg) :
    outputs t (.format flags 0) (l.map Flag.byte ++ rest) args =
      outputs t (.format (l.foldl Flags.add flags) 0) rest args := by
  induction l generalizing flags with
  | nil => rfl
  | cons f l ih =>
    have hnext : nextFormat t f.byte flags 0 args = .more (flags.add f) 0 := by cases f <;> rfl
    rw [List.map_cons, List.cons_append, outputs_more hnext, ih, List.foldl_cons]

theorem foldl_add (l : List Flag) (m p b z s : Bool) :
    l.foldl Flags.add (baseFlags m p b z s) =
      baseFlags (m || decide (.minus ∈ l)) (p || decide (.plus ∈ l)) (b || decide (.space ∈ l))
        (z || decide (.zero ∈ l)) (s || decide (.sharp ∈ l)) := by
  induction l generalizing m p b z s with
  | nil => simp
  | cons f l ih =>
    rw [List.foldl_cons]
    cases f with
    | minus => exact (ih true p b z s).trans (by simp)
    | plus => exact (ih m true b z s).trans (by simp)
    | space => exact (ih m p true z s).trans (by simp)
    | zero => exact (ih m p b true s).trans (by simp)
    | sharp => exact (ih m p b z true).trans (by simp)

theorem digit_facts (d : ℕ) (hd : d < 10) :
    (ch '0' ≤ UInt8.ofNat (d + 48) ∧ UInt8.ofNat (d + 48) ≤ ch '9') ∧
      (UInt8.ofNat (d + 48) = ch '0' ↔ d = 0) ∧ (UInt8.ofNat (d + 48)).toNat - 48 = d := by
  revert d
  decide

theorem nextFormat_digit {d : ℕ} (hd : d < 10) (flags : Flags) (num : ℕ) (args : List Arg) :
    nextFormat t (UInt8.ofNat (d + 48)) flags num args =
      .more { flags with leadzero := flags.leadzero || decide (d = 0 ∧ num = 0) }
        (u32 (num * 10 + d)) := by
  obtain ⟨hrange, hzero, hval⟩ := digit_facts d hd
  rw [nextFormat, if_pos hrange, hval]
  by_cases h : d = 0 ∧ num = 0
  · rw [if_pos ⟨hzero.2 h.1, h.2⟩, decide_eq_true h, Bool.or_true]
  · rw [if_neg fun h' => h ⟨hzero.1 h'.1, h'.2⟩, decide_eq_false h, Bool.or_false]

/-- **A width is read in 32 bits.**  Where it needs more, a zero in it may be taken for a flag. -/
theorem outputs_decimal (w : ℕ) : 0 < w → ∃ z : Bool, (w < 2 ^ 32 → z = false) ∧
    ∀ flags rest args, outputs t (.format flags 0) (decimal w ++ rest) args =
      outputs t (.format { flags with leadzero := flags.leadzero || z } (u32 w)) rest args := by
  induction w using Numeral.induction (b := 10) (by omega) with
  | small w hw =>
    intro hpos
    refine ⟨false, fun _ => rfl, fun flags rest args => ?_⟩
    rw [decimal, numeral_of_lt hw, List.map_singleton, List.singleton_append,
      outputs_more (nextFormat_digit hw flags 0 args), zero_mul, zero_add,
      decide_eq_false (by omega)]
  | step w hw ih =>
    intro hpos
    obtain ⟨z, hz, heq⟩ := ih (by omega)
    refine ⟨z || decide (w % 10 = 0 ∧ u32 (w / 10) = 0), fun hlt => ?_,
      fun flags rest args => ?_⟩
    · rw [hz (by omega), u32_of_lt (by omega), decide_eq_false (by omega)]
      rfl
    · have hval : u32 (u32 (w / 10) * 10 + w % 10) = u32 w := by
        unfold u32
        omega
      rw [decimal, numeral_of_le (by omega) hw, List.map_append, List.append_assoc, ← decimal,
        heq, List.map_singleton, List.singleton_append,
        outputs_more (nextFormat_digit (Nat.mod_lt _ (by omega)) _ _ args), hval, Bool.or_assoc]

/-- The field that a conversion is. -/
def Conv.field (c : Conv) (t : Target) (flags : Flags) (num : ℕ) (a : Arg) : List Event :=
  match c with
  | .d | .i => decimalField t flags num a
  | .u => unsignedField t flags num a
  | .x => hexField t flags num a
  | .X => hexField t { flags with caps := true } num a
  | .p => hexField t { flags with long := true, alt := true } num a

/-- The flags that the engine has at the end of a specification. -/
def Spec.engineFlags (s : Spec) (z : Bool) : Flags :=
  (baseFlags (decide (.minus ∈ s.flags)) (decide (.plus ∈ s.flags)) (decide (.space ∈ s.flags))
    (decide (.zero ∈ s.flags) || z) (decide (.sharp ∈ s.flags))).withLength s.length

/-- **What the engine makes of a specification.** -/
theorem outputs_spec (s : Spec) : ∃ z : Bool, (s.width < 2 ^ 32 → z = false) ∧
    ∀ rest a args, emitted (outputs t (.text []) (s.bytes ++ rest) (a :: args)) =
      emitted (s.conv.field t (s.engineFlags z) (u32 s.width) a) ++
        emitted (outputs t (.text []) rest args) := by
  obtain ⟨z, hz, hwidth⟩ : ∃ z : Bool, (s.width < 2 ^ 32 → z = false) ∧
      ∀ flags rest args, outputs t (.format flags 0)
        ((if s.width = 0 then [] else decimal s.width) ++ rest) args =
          outputs t (.format { flags with leadzero := flags.leadzero || z } (u32 s.width))
            rest args := by
    by_cases h0 : s.width = 0
    · refine ⟨false, fun _ => rfl, fun flags rest args => ?_⟩
      rw [h0, if_pos rfl, Bool.or_false]
      rfl
    · rw [if_neg h0]
      exact outputs_decimal s.width (by omega)
  refine ⟨z, hz, fun rest a args => ?_⟩
  have hlength (m p b z' sh : Bool) (rest : List UInt8) (args : List Arg) :
      outputs t (.format (baseFlags m p b z' sh) (u32 s.width)) (s.length.bytes ++ rest) args =
        outputs t (.format ((baseFlags m p b z' sh).withLength s.length) (u32 s.width)) rest args :=
    by cases s.length <;> rfl
  have hconv (flags : Flags) : outputs t (.format flags (u32 s.width)) (s.conv.byte :: rest)
      (a :: args) = s.conv.field t flags (u32 s.width) a ++ outputs t (.text []) rest args := by
    cases s.conv <;> rfl
  have hbytes : s.bytes ++ rest = ch '%' :: (s.flags.map Flag.byte ++
      ((if s.width = 0 then [] else decimal s.width) ++
        (s.length.bytes ++ (s.conv.byte :: rest)))) := by
    simp [Spec.bytes]
  have hstart : ({} : Flags) = baseFlags false false false false false := rfl
  rw [hbytes, outputs, if_pos rfl, emitted, List.nil_append, hstart, outputs_flags, foldl_add,
    hwidth]
  simp only [Bool.false_or]
  rw [show ({ baseFlags (decide (.minus ∈ s.flags)) (decide (.plus ∈ s.flags))
      (decide (.space ∈ s.flags)) (decide (.zero ∈ s.flags)) (decide (.sharp ∈ s.flags)) with
      leadzero := (baseFlags (decide (.minus ∈ s.flags)) (decide (.plus ∈ s.flags))
        (decide (.space ∈ s.flags)) (decide (.zero ∈ s.flags))
        (decide (.sharp ∈ s.flags))).leadzero || z } : Flags) =
      baseFlags (decide (.minus ∈ s.flags)) (decide (.plus ∈ s.flags))
        (decide (.space ∈ s.flags)) (decide (.zero ∈ s.flags) || z) (decide (.sharp ∈ s.flags))
      from rfl, hlength, hconv, emitted_append]
  rfl

end Parse

/-! ### The conversions -/

section Conversions

variable {t : Target} {s : Spec} {a : Arg}

theorem engineFlags_left (z : Bool) :
    (s.engineFlags z).leftformat = decide (.minus ∈ s.flags) := by
  unfold Spec.engineFlags
  cases s.length <;> rfl

theorem engineFlags_zero : (s.engineFlags false).leadzero = decide (.zero ∈ s.flags) := by
  unfold Spec.engineFlags
  cases s.length <;> simp [Flags.withLength, baseFlags]

theorem engineFlags_sign (z : Bool) : (s.engineFlags z).showsign = decide (.plus ∈ s.flags) ∧
    (s.engineFlags z).blankpos = decide (.space ∈ s.flags) := by
  unfold Spec.engineFlags
  cases s.length <;> exact ⟨rfl, rfl⟩

theorem engineFlags_alt (z : Bool) : (s.engineFlags z).alt = decide (.sharp ∈ s.flags) ∧
    (s.engineFlags z).caps = false ∧ (s.engineFlags z).signed = false := by
  unfold Spec.engineFlags
  cases s.length <;> exact ⟨rfl, rfl, rfl⟩

theorem bits_engineFlags (z : Bool) (h : s.conv ≠ .p) :
    t.bits (s.engineFlags z) = s.bits t := by
  unfold Spec.engineFlags Spec.bits
  cases hc : s.conv with
  | p => exact absurd hc h
  | d | i | u | x | X => cases s.length <;> rfl

theorem bits_pointer (z : Bool) (h : s.conv = .p) :
    t.bits { s.engineFlags z with long := true, alt := true } = s.bits t := by
  unfold Spec.engineFlags Spec.bits
  rw [h]
  cases s.length <;> rfl

theorem spec_bits_le (t : Target) (s : Spec) : 8 ≤ s.bits t ∧ s.bits t ≤ 64 := by
  by_cases h : s.conv = .p
  · rw [← bits_pointer false h]
    exact bits_le t _
  · rw [← bits_engineFlags false h]
    exact bits_le t _

/-- The digits of a value of 64 bits are few. -/
theorem length_digits_le (t : Target) (s : Spec) (a : Arg) : (s.digits t a).length ≤ 31 := by
  have hval : (s.value t a).natAbs < 2 ^ 64 := by
    have hbits := spec_bits_le t s
    have hpow : 2 ^ s.bits t ≤ 2 ^ 64 := Nat.pow_le_pow_right (by omega) hbits.2
    have hlow := Int.le_bmod (x := a.toInt) (Nat.two_pow_pos (s.bits t))
    have hhigh := Int.bmod_lt (x := a.toInt) (Nat.two_pow_pos (s.bits t))
    have hpos : (0 : ℤ) < 2 ^ s.bits t := by positivity
    have h0 := Int.emod_nonneg a.toInt hpos.ne'
    have hlt := Int.emod_lt_of_pos a.toInt hpos
    have hcast : ((2 ^ s.bits t : ℕ) : ℤ) = 2 ^ s.bits t := by push_cast; rfl
    unfold Spec.value
    split <;> omega
  unfold Spec.digits
  split <;> first
    | (rw [length_decimal]; exact length_le (by omega) (by omega) (by omega))
    | (rw [length_hexadecimal]; exact length_le (by omega) (by omega) (by omega))

theorem field_signed (h : s.conv = .d ∨ s.conv = .i) (z : Bool) (num : ℕ) :
    ∃ sign : Option UInt8, s.conv.field t (s.engineFlags z) num a =
      outputString { s.engineFlags z with signed := true } num sign (s.digits t a) ∧
        sign.toList = s.lead t a := by
  obtain ⟨hplus, hspace⟩ := engineFlags_sign (s := s) z
  have hbits : t.bits { s.engineFlags z with signed := true } = s.bits t := by
    rw [← bits_engineFlags z (by rcases h with h | h <;> rw [h] <;> decide)]
    rfl
  have hread := longlongToString_signed t { s.engineFlags z with signed := true } rfl a
  rw [hbits] at hread
  have hfield : s.conv.field t (s.engineFlags z) num a =
      decimalField t (s.engineFlags z) num a := by rcases h with h | h <;> rw [h] <;> rfl
  have hvalue : s.value t a = a.toInt.bmod (2 ^ s.bits t) := by
    rcases h with h | h <;> rw [Spec.value, h]
  have hdigits : s.digits t a = decimal (s.value t a).natAbs := by
    rcases h with h | h <;> rw [Spec.digits, h]
  have hlead : s.lead t a = if s.value t a < 0 then [ch '-']
      else if .plus ∈ s.flags then [ch '+'] else if .space ∈ s.flags then [ch ' '] else [] := by
    rcases h with h | h <;> rw [Spec.lead, h]
  refine ⟨(longlongToString (t.readSigned { s.engineFlags z with signed := true } a)
    { s.engineFlags z with signed := true }).2, ?_, ?_⟩
  · rw [hfield, decimalField, hread, hdigits, hvalue]
  · rw [hread, hlead, hvalue, hplus, hspace]
    simp only [decide_eq_true_eq]
    split_ifs <;> rfl

theorem field_unsigned (h : s.conv = .u) (z : Bool) (num : ℕ) :
    s.conv.field t (s.engineFlags z) num a =
      outputString (s.engineFlags z) num
        (if .plus ∈ s.flags then some (ch '+') else if .space ∈ s.flags then some (ch ' ')
          else none) (s.digits t a) := by
  obtain ⟨hplus, hspace⟩ := engineFlags_sign (s := s) z
  have hread := longlongToString_unsigned t (engineFlags_alt (s := s) z).2.2 a
  rw [bits_engineFlags z (by rw [h]; decide), hplus, hspace] at hread
  simp only [decide_eq_true_eq] at hread
  rw [Spec.digits, Spec.value, h]
  change unsignedField t (s.engineFlags z) num a = _
  rw [unsignedField, hread]

/-- The prefix that the engine writes. -/
def Spec.enginePrefix (s : Spec) : List UInt8 :=
  if s.conv = .p ∨ .sharp ∈ s.flags then [ch '0', if s.conv = .X then ch 'X' else ch 'x'] else []

theorem field_hex (h : s.conv = .x ∨ s.conv = .X ∨ s.conv = .p) (z : Bool) (num : ℕ) :
    ∃ flags : Flags, emitted (s.conv.field t (s.engineFlags z) num a) =
      s.enginePrefix ++ emitted (outputString flags num none (s.digits t a)) ∧
        flags.leftformat = (s.engineFlags z).leftformat ∧
          flags.leadzero = (s.engineFlags z).leadzero := by
  obtain ⟨halt, hcaps, -⟩ := engineFlags_alt (s := s) z
  have hemit (flags : Flags) : emitted (hexField t flags num a) =
      (if flags.alt then [ch '0', if flags.caps then ch 'X' else ch 'x'] else []) ++
        emitted (outputString flags num none
          (hexadecimal flags.caps (a.toInt % 2 ^ t.bits flags).natAbs)) := by
    rw [hexField, longlongToHexstring_eq, emitted_append]
    split_ifs <;> rfl
  rw [Spec.enginePrefix]
  rcases h with h | h | h
  · refine ⟨s.engineFlags z, ?_, rfl, rfl⟩
    have hbits := bits_engineFlags (t := t) z (by rw [h]; decide)
    rw [h, Conv.field, hemit, hbits, halt, hcaps, Spec.digits, Spec.value, h]
    simp
  · refine ⟨{ s.engineFlags z with caps := true }, ?_, rfl, rfl⟩
    have hbits : t.bits { s.engineFlags z with caps := true } = s.bits t :=
      bits_engineFlags (t := t) z (by rw [h]; decide)
    rw [h, Conv.field, hemit, hbits, Spec.digits, Spec.value, h]
    simp [halt]
  · refine ⟨{ s.engineFlags z with long := true, alt := true }, ?_, rfl, rfl⟩
    rw [h, Conv.field, hemit, bits_pointer z h, Spec.digits, Spec.value, h]
    simp [hcaps]

/-- No field is longer than the width that was read asks for, but for a few characters. -/
theorem length_field_le (z : Bool) (num : ℕ) :
    (emitted (s.conv.field t (s.engineFlags z) num a)).length ≤ num + 34 := by
  have hdigits := length_digits_le t s a
  cases hc : s.conv with
  | d | i =>
    obtain ⟨sign, hfield, -⟩ := field_signed (t := t) (a := a) (s := s) (by simp [hc]) z num
    rw [hc] at hfield
    rw [hfield]
    exact (length_outputString_le _ _ _ _).trans (by omega)
  | u =>
    have hfield := field_unsigned (t := t) (a := a) hc z num
    rw [hc] at hfield
    rw [hfield]
    exact (length_outputString_le _ _ _ _).trans (by omega)
  | x | X | p =>
    obtain ⟨flags, hfield, -⟩ := field_hex (t := t) (a := a) (s := s) (by simp [hc]) z num
    rw [hc] at hfield
    have hprefix : s.enginePrefix.length ≤ 2 := by
      unfold Spec.enginePrefix
      split_ifs <;> simp
    have hle := length_outputString_le flags num none (s.digits t a)
    rw [hfield, List.length_append]
    omega

/-- A prefix before the padding is where it belongs only if there is no padding. -/
theorem prefix_padded_iff {fl : List Flag} {width : ℕ} {pre digits : List UInt8}
    (hpre : pre.length = 2) :
    pre ++ padded fl width [] digits = padded fl width pre digits ↔ width ≤ digits.length := by
  constructor
  · intro h
    have hlen := congrArg List.length h
    rw [List.length_append, length_padded, length_padded, hpre, List.length_nil] at hlen
    omega
  · intro h
    have h0 : width - digits.length = 0 := by omega
    have h2 : width - (pre.length + digits.length) = 0 := by omega
    unfold padded
    rw [h2]
    split_ifs <;> simp [h0]

/-- When `%d` and `%i` are standard: only a left-aligned field loses its sign. -/
theorem signed_iff (h : s.conv = .d ∨ s.conv = .i) :
    emitted (s.conv.field t (s.engineFlags false) s.width a) = s.standard t a ↔
      (.minus ∈ s.flags → 0 ≤ s.value t a ∧ .plus ∉ s.flags ∧ .space ∉ s.flags) := by
  obtain ⟨sign, hfield, hsign⟩ := field_signed (t := t) (a := a) h false s.width
  have hdigits := length_digits_le t s a
  have hlead : s.lead t a = if s.value t a < 0 then [ch '-']
      else if .plus ∈ s.flags then [ch '+'] else if .space ∈ s.flags then [ch ' '] else [] := by
    rcases h with h | h <;> rw [Spec.lead, h]
  have hdec : s.digits t a = decimal (s.value t a).natAbs := by
    rcases h with h | h <;> rw [Spec.digits, h]
  have hnil : sign = none ↔ 0 ≤ s.value t a ∧ .plus ∉ s.flags ∧ .space ∉ s.flags := by
    rw [← Option.toList_eq_nil_iff, hsign, hlead]
    split_ifs with hneg hplus hspace
    · exact iff_of_false (by simp) fun h => absurd h.1 (by omega)
    · exact iff_of_false (by simp) fun h => h.2.1 hplus
    · exact iff_of_false (by simp) fun h => h.2.2 hspace
    · exact iff_of_true rfl ⟨by omega, hplus, hspace⟩
  rw [hfield, ← hnil]
  constructor
  · intro heq hminus
    rw [emitted_outputString, Spec.standard, padded, if_pos (by simp [engineFlags_left, hminus]),
      if_pos hminus, List.append_assoc] at heq
    -- the text starts with a digit, and should start with the sign
    cases hs : sign with
    | none => rfl
    | some c =>
      rw [hs, Option.toList_some] at hsign
      obtain ⟨d, l, hd, hge⟩ := decimal_cons (s.value t a).natAbs
      rw [← hsign, hdec, hd] at heq
      have hc : c = d := (List.cons.inj heq).1.symm
      have hlt : c < 48 := by
        have : c ∈ s.lead t a := hsign ▸ List.mem_singleton_self c
        rw [hlead] at this
        split_ifs at this <;> first
          | (rw [List.mem_singleton.1 this]; decide)
          | cases this
      exact absurd hge (by rw [← hc]; exact UInt8.not_le.2 hlt)
  · intro hmeets
    refine (emitted_eq_padded ?_ ?_ (by omega) hmeets).trans (by rw [hsign]; rfl)
    · exact engineFlags_left false
    · exact engineFlags_zero

/-- When `%u` is standard: left-aligned fields are, and in the others no sign may be asked for. -/
theorem unsigned_iff (h : s.conv = .u) :
    emitted (s.conv.field t (s.engineFlags false) s.width a) = s.standard t a ↔
      .minus ∈ s.flags ∨ .plus ∉ s.flags ∧ (.space ∉ s.flags ∨
        .zero ∉ s.flags ∧ (numeral 10 (s.value t a).natAbs).length < s.width) := by
  have hdigits := length_digits_le t s a
  have hdec : s.digits t a = decimal (s.value t a).natAbs := by rw [Spec.digits, h]
  have hstd : s.standard t a = padded s.flags s.width [] (s.digits t a) := by
    rw [Spec.standard, Spec.lead, h]
  have hnone : emitted (outputString (s.engineFlags false) s.width none (s.digits t a)) =
      s.standard t a := by
    rw [hstd]
    exact emitted_eq_padded (engineFlags_left false) engineFlags_zero (by omega) fun _ => rfl
  rw [field_unsigned h, ← length_decimal, ← hdec]
  by_cases hminus : .minus ∈ s.flags
  · -- a left justified number has no sign
    refine iff_of_true ?_ (.inl hminus)
    rw [← hnone, emitted_outputString, emitted_outputString,
      if_pos (by rw [engineFlags_left]; exact decide_eq_true hminus),
      if_pos (by rw [engineFlags_left]; exact decide_eq_true hminus)]
  · have hsome (c : UInt8) (hc : c < 48) :
        emitted (outputString (s.engineFlags false) s.width (some c) (s.digits t a)) =
          s.standard t a ↔
            c = ch ' ' ∧ .zero ∉ s.flags ∧ (s.digits t a).length < s.width := by
      obtain ⟨d, l, hd, hge⟩ := decimal_cons (s.value t a).natAbs
      have hne (d : UInt8) (hd : 48 ≤ d) : c ≠ d := by
        rintro rfl
        exact UInt8.not_le.2 hc hd
      rw [hstd, emitted_outputString, engineFlags_left, engineFlags_zero, padded, if_neg hminus,
        if_neg (by simpa using hminus)]
      simp only [Option.isSome_some, true_and, Option.toList_some, List.length_nil, zero_add,
        List.nil_append, List.append_nil, decide_eq_true_eq]
      by_cases hzero : .zero ∈ s.flags
      · refine iff_of_false (fun heq => ?_) fun h => h.2.1 hzero
        simp only [if_pos hzero] at heq
        rw [hdec, hd] at heq
        rcases hpad : s.width - (d :: l).length with _ | n
        · rw [hpad] at heq
          exact hne d hge (List.cons.inj heq).1
        · rw [hpad, List.replicate_succ] at heq
          exact hne (ch '0') (by decide) (List.cons.inj heq).1
      · simp only [if_neg hzero]
        rw [List.nil_append]
        rcases Nat.lt_or_ge (s.digits t a).length s.width with hlt | hge'
        · have hpad : s.width - (s.digits t a).length =
              (s.width - 1 - (s.digits t a).length) + 1 := by omega
          rw [if_pos (by omega), hpad, List.replicate_succ', List.append_assoc, List.append_assoc,
            List.append_cancel_left_eq, List.append_left_inj]
          simp [hzero, hlt]
        · refine iff_of_false (fun heq => ?_) fun h => absurd h.2.2 (by omega)
          have hlen := congrArg List.length heq
          simp only [List.length_append, List.length_replicate, List.length_singleton] at hlen
          split_ifs at hlen <;> omega
    by_cases hplus : .plus ∈ s.flags
    · rw [if_pos hplus, hsome _ (by decide)]
      exact iff_of_false (fun h => absurd h.1 (by decide)) fun h => by tauto
    · rw [if_neg hplus]
      by_cases hspace : .space ∈ s.flags
      · rw [if_pos hspace, hsome _ (by decide)]
        tauto
      · rw [if_neg hspace]
        exact iff_of_true hnone (.inr ⟨hplus, .inl hspace⟩)

theorem hex_iff (h : s.conv = .x ∨ s.conv = .X ∨ s.conv = .p) :
    emitted (s.conv.field t (s.engineFlags false) s.width a) = s.standard t a ↔
      (s.conv = .p ∨ .sharp ∈ s.flags → (s.conv = .p ∨ s.value t a ≠ 0) ∧
        s.width ≤ (numeral 16 (s.value t a).natAbs).length) := by
  obtain ⟨flags, hfield, hleft, hzero⟩ := field_hex (t := t) (a := a) h false s.width
  have hdigits := length_digits_le t s a
  have hhex : (s.digits t a).length = (numeral 16 (s.value t a).natAbs).length := by
    rcases h with h | h | h <;> rw [Spec.digits, h, length_hexadecimal]
  have hlead : s.lead t a =
      if s.conv = .p ∨ .sharp ∈ s.flags ∧ s.value t a ≠ 0 then
        [ch '0', if s.conv = .X then ch 'X' else ch 'x'] else [] := by
    rcases h with h | h | h <;> rw [Spec.lead, h] <;> simp
  rw [hfield, emitted_eq_padded (hleft.trans (engineFlags_left false))
    (hzero.trans engineFlags_zero) (by omega) fun _ => rfl, Option.toList_none, Spec.standard,
    hlead, Spec.enginePrefix, ← hhex]
  by_cases hpre : s.conv = .p ∨ .sharp ∈ s.flags
  · rw [if_pos hpre]
    by_cases hval : s.conv = .p ∨ s.value t a ≠ 0
    · rw [if_pos (show s.conv = .p ∨ .sharp ∈ s.flags ∧ s.value t a ≠ 0 by tauto),
        prefix_padded_iff rfl]
      exact ⟨fun h _ => ⟨hval, h⟩, fun h => (h hpre).2⟩
    · rw [if_neg (show ¬ (s.conv = .p ∨ .sharp ∈ s.flags ∧ s.value t a ≠ 0) by tauto)]
      refine iff_of_false (fun heq => ?_) fun h => hval (h hpre).1
      have hlen := congrArg List.length heq
      rw [List.length_append, length_padded] at hlen
      simp at hlen
  · rw [if_neg hpre, if_neg (by tauto)]
    exact iff_of_true rfl fun h => absurd h hpre

/-- **A conversion has the text of the standard** exactly when its flags, width and value keep
away from what the engine does not do. -/
theorem emitsStandard_iff (t : Target) (s : Spec) (a : Arg) :
    EmitsStandard t s a ↔ s.Meets t a := by
  obtain ⟨z, hz, hout⟩ := outputs_spec (t := t) s
  have htext : EmitsStandard t s a ↔
      emitted (s.conv.field t (s.engineFlags z) (u32 s.width) a) = s.standard t a := by
    unfold EmitsStandard
    simp only [hout]
    exact ⟨fun h => List.append_cancel_right (h [] []), fun h rest args => by rw [h]⟩
  rw [htext, Spec.Meets]
  rcases Nat.lt_or_ge s.width (2 ^ 32) with hlt | hge
  · rw [hz hlt, u32_of_lt hlt]
    have hwidth (P : Prop) : (s.width < 2 ^ 32 ∧ P) ↔ P := and_iff_right hlt
    rw [hwidth]
    cases hc : s.conv with
    | d => simpa only [hc] using signed_iff (t := t) (a := a) (.inl hc)
    | i => simpa only [hc] using signed_iff (t := t) (a := a) (.inr hc)
    | u => simpa only [hc] using unsigned_iff (t := t) (a := a) hc
    | x => simpa [hc] using hex_iff (t := t) (a := a) (.inl hc)
    | X => simpa [hc] using hex_iff (t := t) (a := a) (.inr (.inl hc))
    | p => simpa [hc] using hex_iff (t := t) (a := a) (.inr (.inr hc))
  · refine iff_of_false (fun heq => ?_) fun h => absurd h.1 (by omega)
    have hfield := length_field_le (t := t) (s := s) (a := a) z (u32 s.width)
    have hu : u32 s.width + 2 ^ 32 ≤ s.width := by
      unfold u32
      omega
    rw [heq, Spec.standard, length_padded] at hfield
    omega

end Conversions

end Printf
end LittleKernel
