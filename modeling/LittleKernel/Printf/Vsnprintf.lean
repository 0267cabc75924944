/-
# Formatting into a buffer

`lib/libc/printf.c`: `vsnprintf`.

The buffer holds a prefix of what the engine has output so far (`Buffer.Holds`).  The NUL goes to
the last byte of the buffer where the text did not fit, and this byte is before the buffer where
the buffer has none.
-/

import LittleKernel.Printf.Standard

namespace LittleKernel
namespace Printf

open Bytes Word Numeral

/-! ### Formats -/

section Formats

/-- A part of a format: a character that is neither NUL nor `%`, the sign `%%`, or a conversion
with its argument, whose flags, width and value the engine does as the standard has them. -/
inductive Piece (t : Target)
  | char (c : UInt8) (hc : c ≠ ch '%') (h0 : c ≠ 0)
  | percent
  | conv (s : Spec) (a : Arg) (h : s.Meets t a)

variable {t : Target}

def Piece.bytes : Piece t → List UInt8
  | .char c .. => [c]
  | .percent => [ch '%', ch '%']
  | .conv s _ _ => s.bytes

def Piece.args : Piece t → List Arg
  | .conv _ a _ => [a]
  | _ => []

/-- The text of a part. -/
def Piece.standard : Piece t → List UInt8
  | .char c .. => [c]
  | .percent => [ch '%']
  | .conv s a _ => s.standard t a

/-- **A format is its parts' texts.**  Whatever the parts, their number and their order, the
engine takes one argument for each conversion and outputs the standard's texts one behind the
other, with nothing between them. -/
theorem outputs_pieces (l : List (Piece t)) :
    emitted (outputs t (.text []) (l.flatMap Piece.bytes) (l.flatMap Piece.args)) =
      l.flatMap Piece.standard := by
  induction l with
  | nil => rfl
  | cons p l ih =>
    rw [List.flatMap_cons, List.flatMap_cons, List.flatMap_cons, ← ih]
    cases p with
    | char c hc h0 =>
      change emitted (outputs t (.text []) (c :: _) _) = [c] ++ _
      rw [outputs, if_neg hc, emitted_text]
      rfl
    | percent => rfl
    | conv s a h => exact (emitsStandard_iff t s a).2 h _ _

/-- `%-3u|%+d%%` of 7 and 5 is `7  |+5%`. -/
theorem outputs_pieces_line :
    emitted (outputs ⟨true, fun _ _ _ => []⟩ (.text []) ("%-3u|%+d%%".toList.map ch)
      [.int 7, .int 5]) = "7  |+5%".toList.map ch :=
  outputs_pieces [.conv ⟨[.minus], 3, .int, .u⟩ (.int 7) ⟨by decide, .inl (by decide)⟩,
    .char (ch '|') (by decide) (by decide),
    .conv ⟨[.plus], 0, .int, .d⟩ (.int 5) ⟨by decide, fun h => absurd h (by decide)⟩, .percent]

end Formats

/-! ### The buffer -/

/-- The buffer holds as much of a text as it has room for, and the rest of it is as it was. -/
structure Buffer.Holds (len : ℕ) (mem : ℕ → UInt8) (text : List UInt8) (b : Buffer) : Prop where
  len_eq : b.len = len
  pos_eq : b.pos = min len text.length
  mem_eq : ∀ i, b.mem i = if i < min len text.length then text.getD i 0 else mem i

theorem Buffer.put_of_empty {b : Buffer} (h : b.len = 0) (i : ℤ) (c : UInt8) :
    b.put i c = none := if_neg (by omega)

section Buffer

variable {len : ℕ} {mem : ℕ → UInt8}

variable {text : List UInt8} {b : Buffer}

theorem Buffer.Holds.char (h : b.Holds len mem text) (c : UInt8) :
    ∃ b', vsnprintfOutput [c] b = some b' ∧ b'.Holds len mem (text ++ [c]) := by
  have hpos := h.pos_eq
  have hlen := h.len_eq
  rcases Nat.lt_or_ge b.pos b.len with hlt | hge
  · refine ⟨⟨Function.update b.mem b.pos c, b.len, b.pos + 1⟩, ?_, ?_⟩
    · rw [vsnprintfOutput, if_pos hlt, Buffer.put, if_pos (by omega)]
      rfl
    · refine ⟨hlen, ?_, fun i => ?_⟩
      · rw [List.length_append, List.length_singleton]
        simp only
        omega
      · rw [List.length_append, List.length_singleton]
        simp only [Function.update_apply, h.mem_eq]
        rcases Nat.lt_trichotomy i b.pos with hi | hi | hi
        · rw [if_neg (by omega), if_pos (by omega), if_pos (by omega),
            List.getD_append _ _ _ _ (by omega)]
        · rw [if_pos hi, if_pos (by omega), List.getD_append_right _ _ _ _ (by omega),
            show i - text.length = 0 by omega]
          rfl
        · rw [if_neg (by omega), if_neg (by omega), if_neg (by omega)]
  · refine ⟨b, ?_, hlen, ?_, fun i => ?_⟩
    · rw [vsnprintfOutput, if_neg (by omega)]
      rfl
    · rw [List.length_append]
      omega
    · rw [h.mem_eq, List.length_append]
      split_ifs
      · rw [List.getD_append _ _ _ _ (by omega)]
      · omega
      · omega
      · rfl

theorem Buffer.Holds.output (h : b.Holds len mem text) (s : List UInt8) :
    ∃ b', vsnprintfOutput s b = some b' ∧ b'.Holds len mem (text ++ s) := by
  induction s generalizing text b with
  | nil => exact ⟨b, rfl, by rwa [List.append_nil]⟩
  | cons c s ih =>
    obtain ⟨mid, hmid, hmid'⟩ := h.char c
    obtain ⟨b', hb', hholds⟩ := ih hmid'
    refine ⟨b', ?_, by rwa [List.append_assoc] at hholds⟩
    rw [vsnprintfOutput] at hmid ⊢
    obtain ⟨mid', hm, hm'⟩ := Option.bind_eq_some_iff.1 hmid
    cases hm'
    rw [hm]
    exact hb'

theorem toInt_of_lt {x : ℕ} (h : x < 2 ^ 31) : toInt x = x := by
  unfold toInt
  norm_num [Int.bmod]
  omega

theorem toInt_lt (x : ℕ) : toInt x < 2 ^ 31 := by
  have := Int.bmod_lt (x := (x : ℤ)) (m := 2 ^ 32) (by norm_num)
  unfold toInt
  norm_num at this ⊢
  omega

/-- **The loop over the outputs** of a text whose length is an `int`. -/
theorem printfEngine_holds (l : List Event)
    (h : b.Holds len mem text) (hlt : (text ++ emitted l).length < 2 ^ 31) :
    ∃ b', printfEngine l text.length b = some (((text ++ emitted l).length : ℤ), b') ∧
      b'.Holds len mem (text ++ emitted l) := by
  induction l generalizing text b with
  | nil =>
    rw [emitted, List.append_nil] at hlt ⊢
    exact ⟨b, by rw [printfEngine, toInt_of_lt hlt], h⟩
  | cons e l ih =>
    cases e with
    | store flags => exact ih h hlt
    | output s =>
      rw [emitted, ← List.append_assoc] at hlt ⊢
      obtain ⟨mid, hmid, hholds⟩ := h.output s
      obtain ⟨b', hb', hholds'⟩ := ih hholds hlt
      refine ⟨b', ?_, hholds'⟩
      rw [List.length_append, List.length_append] at hlt
      rw [printfEngine, hmid, Option.bind_some, toInt_of_lt (by omega), if_neg (by omega),
        u32_of_lt (by omega), u64_of_lt (by omega), ← List.length_append]
      exact hb'

/-- What the engine returns is an `int`. -/
theorem printfEngine_lt {l : List Event} {written : ℕ} {b b' : Buffer} {r : ℤ}
    (h : printfEngine l written b = some (r, b')) : r < 2 ^ 31 := by
  induction l generalizing written b with
  | nil =>
    rw [← (Prod.mk.inj (Option.some.inj h)).1]
    exact toInt_lt written
  | cons e l ih =>
    cases e with
    | store flags => exact ih h
    | output s =>
      rw [printfEngine] at h
      obtain ⟨mid, -, hmid⟩ := Option.bind_eq_some_iff.1 h
      split_ifs at hmid
      · rw [← (Prod.mk.inj (Option.some.inj hmid)).1]
        exact toInt_lt _
      · exact ih hmid

end Buffer

/-! ### The call -/

/-- What a call formats. -/
def text (t : Target) (fmt : CString) (args : List Arg) : List UInt8 :=
  emitted (outputs t (.text []) fmt.bytes args)

/-- **The first characters of the text and a NUL are stored in the buffer**, nothing else is, and
the length of the text is returned. -/
def Stores (t : Target) (fmt : CString) (args : List Arg) (len : ℕ) (mem : ℕ → UInt8) : Prop :=
  ∃ b, vsnprintf t fmt args len mem = some (((text t fmt args).length : ℤ), b) ∧
    ∀ i, b.mem i =
      if i < min (len - 1) (text t fmt args).length then (text t fmt args).getD i 0
      else if i = min (len - 1) (text t fmt args).length then 0
      else mem i

/-- The buffer is right if it has room for the NUL and the length fits in an `int`. -/
theorem stores_iff (t : Target) (fmt : CString) (args : List Arg) {len : ℕ} (hlen : len < 2 ^ 64)
    (mem : ℕ → UInt8) :
    Stores t fmt args len mem ↔ 0 < len ∧ (text t fmt args).length < 2 ^ 31 := by
  have hstart : Buffer.Holds len mem [] ⟨mem, len, 0⟩ :=
    ⟨rfl, (Nat.min_zero len).symm, fun i => by rw [List.length_nil, if_neg (by omega)]⟩
  constructor
  · rintro ⟨b, hb, -⟩
    obtain ⟨⟨r, b'⟩, hengine, hput⟩ := Option.bind_eq_some_iff.1 hb
    obtain ⟨b'', hb'', heq⟩ := Option.map_eq_some_iff.1 hput
    have hr : r = (text t fmt args).length := (Prod.mk.inj heq).1
    have hlt := printfEngine_lt hengine
    refine ⟨?_, by omega⟩
    obtain ⟨b3, hb3, hholds⟩ := printfEngine_holds (outputs t (.text []) fmt.bytes args) hstart
      (by rw [List.nil_append]; change (text t fmt args).length < _; omega)
    cases hengine.symm.trans hb3
    by_contra h0
    -- the NUL would be stored before the buffer
    have hsize : b'.len = 0 := hholds.len_eq.trans (by omega)
    rw [Buffer.put_of_empty hsize] at hb''
    cases hb''
  · rintro ⟨hpos, hlt⟩
    obtain ⟨b, hb, hholds⟩ := printfEngine_holds (outputs t (.text []) fmt.bytes args) hstart
      (by rw [List.nil_append]; exact hlt)
    rw [List.nil_append] at hb hholds
    change printfEngine _ _ _ = some (((text t fmt args).length : ℤ), b) at hb
    change b.Holds len mem (text t fmt args) at hholds
    have hl := hholds.len_eq
    have hp := hholds.pos_eq
    have hindex : (if len ≤ b.pos then (sub64 len 1 : ℤ) else ((text t fmt args).length : ℤ)) =
        (min (len - 1) (text t fmt args).length : ℕ) := by
      rw [sub64_of_le hlen hpos]
      split_ifs <;> omega
    refine ⟨{ b with mem := Function.update b.mem (min (len - 1) (text t fmt args).length) 0 },
      ?_, fun i => ?_⟩
    · have hrun : printfEngine (outputs t (.text []) fmt.bytes args) 0 ⟨mem, len, 0⟩ =
          some (((text t fmt args).length : ℤ), b) := hb
      rw [vsnprintf, hrun, Option.bind_some]
      simp only [hindex]
      rw [Buffer.put, if_pos (by omega)]
      rfl
    · simp only [Function.update_apply, hholds.mem_eq]
      split_ifs <;> first | rfl | omega

/-- **Integer formatting**: a conversion has the text of the standard exactly when its flags,
width and value keep away from what the engine does not do, and a buffer that is not empty gets
the start of any text whose length is an `int`. -/
theorem printf_standard_iff (t : Target) (s : Spec) (a : Arg) (fmt : CString) (args : List Arg)
    (len : UInt64) (mem : ℕ → UInt8) :
    (EmitsStandard t s a ↔ s.Meets t a) ∧ (Stores t fmt args len.toNat mem ↔
        0 < len.toNat ∧ (text t fmt args).length < 2 ^ 31) :=
  ⟨emitsStandard_iff t s a, stores_iff t fmt args len.toNat_lt mem⟩

/-- `%-5d` of -3 has no sign. -/
theorem leftJustified_not_standard : ¬ ((∀ t s a, EmitsStandard t s a) ∧
    ∀ t fmt args (len : UInt64) mem, Stores t fmt args len.toNat mem) := by
  rintro ⟨hall, -⟩
  have hmeets := (emitsStandard_iff ⟨true, fun _ _ _ => []⟩ ⟨[.minus], 5, .int, .d⟩
    (.int (-3))).1 (hall _ _ _)
  exact absurd (hmeets.2 (by decide)).1 (by decide)

end Printf
end LittleKernel
