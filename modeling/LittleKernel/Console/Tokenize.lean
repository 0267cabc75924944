/-
# Splitting a command

`lib/console/console.c`: `tokenize_command`; `lib/libc/ctype.c`: `isspace`.

The scanner has eleven states; it reads a field at a time and writes it, with a NUL behind it, to
the output buffer.  The fields of a command do not depend on what they are replaced by
(`splitCommand`), so the scanner is a reading of the fields (`emitFields`).  `env_get` is not part
of the sources: what it leaves in the buffer is a parameter (`EnvLib`).
-/

import LittleKernel.Lib.Bytes

namespace LittleKernel
namespace Console

open Bytes

/-! ### The environment -/

/-- `lib/env`: the values of the variables, and `env_get`, which leaves a string in the room that
it gets and returns a number below zero (here `none`) for a variable that is not set.  A value
that does not fit is not returned whole. -/
structure EnvLib (Env : Type) where
  value : Env → List UInt8 → Option CString
  envGet : Env → List UInt8 → ℕ → Option CString
  get_unset : ∀ env name len, value env name = none → envGet env name len = none
  get_fits : ∀ env name len v, value env name = some v → v.bytes.length < len →
    envGet env name len = some v
  get_cut : ∀ env name len v, value env name = some v → 0 < len → len ≤ v.bytes.length →
    ∀ s, envGet env name len = some s → s.bytes.length < len

/-! ### The scanner -/

/-- What the scanner can do wrong: write behind the output buffer, write behind `varname`, fail an
assertion; and not return. -/
inductive Fault
  | buffer
  | varname
  | halted
  | endless
  deriving DecidableEq

/-- `isspace`. -/
def isspace (c : UInt8) : Bool :=
  c == 32 || c == 12 || c == 10 || c == 13 || c == 9 || c == 11

/-- The characters that the scanner knows: `;`, `"`, `$` and `0`. -/
def semicolon : UInt8 := 59
def quote : UInt8 := 34
def dollar : UInt8 := 36
def zero : UInt8 := 48

inductive State
  | initial
  | nextField
  | space
  | inSpace
  | token
  | inToken
  | quotedToken
  | inQuotedToken
  | var
  | inVar
  | commandSep
  deriving DecidableEq

/-- The variables of the scanner: what is left of the input, what is in the output buffer, where
in it the arguments and the current one start. -/
structure Tok where
  state : State
  rest : List UInt8
  buffer : List UInt8
  args : List ℕ
  str : ℕ
  varname : List UInt8
  continuebuffer : Option (List UInt8)

/-- `buffer[outpos++] = c` for some characters. -/
def put (buflen : ℕ) (buffer s : List UInt8) : Except Fault (List UInt8) :=
  if s = [] ∨ buffer.length + s.length ≤ buflen then .ok (buffer ++ s) else .error .buffer

/-- `sizeof(varname)`. -/
def varnameLen : ℕ := 128

section Scanner

variable {Env : Type} (lib : EnvLib Env) (env : Env) (buflen argCount : ℕ)

/-- `env_get` into what is left of the buffer, or `0`. -/
def putVar (buffer name : List UInt8) : Except Fault (List UInt8) :=
  if buffer.length < buflen then
    match lib.envGet env name (buflen - buffer.length) with
    | none => (put buflen buffer [zero]).bind fun b => put buflen b [0]
    | some v => .ok (buffer ++ v.bytes ++ [0])
  else .error .buffer

/-- A round of the scanner on a character; it ends where the second component is `true`. -/
def stepOn (c : UInt8) (s : Tok) : Except Fault (Tok × Bool) :=
  let args := s.args ++ [s.str]
  match s.state with
  | .initial | .nextField =>
    if c = 0 then .ok (s, true)
    else if isspace c then .ok ({ s with state := .space }, false)
    else if c = semicolon then .ok ({ s with state := .commandSep }, false)
    else .ok ({ s with state := .token }, false)
  | .space => .ok ({ s with state := .inSpace }, false)
  | .inSpace =>
    if c = 0 then .ok (s, true)
    else if c = semicolon then .ok ({ s with state := .commandSep }, false)
    else if ¬ isspace c then .ok ({ s with state := .token }, false)
    else .ok ({ s with rest := s.rest.tail }, false)
  | .token =>
    if c = 0 then .error .halted
    else if c = quote then .ok ({ s with state := .quotedToken }, false)
    else if c = dollar then .ok ({ s with state := .var }, false)
    else .ok ({ s with state := .inToken, str := s.buffer.length }, false)
  | .inToken =>
    if c = 0 then .ok ({ s with args }, true)
    else if isspace c ∨ c = semicolon then
      (put buflen s.buffer [0]).map fun buffer =>
        ({ s with args, buffer, state := .nextField }, decide (args.length = argCount))
    else
      (put buflen s.buffer [c]).map fun buffer =>
        ({ s with buffer, rest := s.rest.tail }, false)
  | .quotedToken =>
    if c ≠ quote then .error .halted
    else .ok ({ s with state := .inQuotedToken, str := s.buffer.length, rest := s.rest.tail },
      false)
  | .inQuotedToken =>
    if c = 0 then .ok ({ s with args }, true)
    else if c = quote then
      (put buflen s.buffer [0]).bind fun buffer =>
        if args.length = argCount then .ok ({ s with args, buffer }, true)
        else
          -- the quote is stored too, behind the NUL
          (put buflen buffer [c]).map fun buffer =>
            ({ s with args, buffer, state := .nextField, rest := s.rest.tail }, false)
    else
      (put buflen s.buffer [c]).map fun buffer =>
        ({ s with buffer, rest := s.rest.tail }, false)
  | .var =>
    if c ≠ dollar then .error .halted
    else .ok ({ s with state := .inVar, str := s.buffer.length, rest := s.rest.tail,
                       varname := [] }, false)
  | .inVar =>
    if c = 0 ∨ isspace c ∨ c = semicolon then
      if s.varname.length < varnameLen then
        (putVar lib env buflen s.buffer s.varname).map fun buffer =>
          ({ s with args, buffer, state := .nextField }, decide (args.length = argCount))
      else .error .varname
    else if s.varname.length < varnameLen then
      .ok ({ s with varname := s.varname ++ [c], rest := s.rest.tail }, false)
    else .error .varname
  | .commandSep =>
    if c ≠ semicolon then .error .halted
    else .ok ({ s with rest := s.rest.tail, continuebuffer := some s.rest.tail }, true)

/-- A round of the scanner; the NUL is behind what is left of the line. -/
def step (s : Tok) : Except Fault (Tok × Bool) :=
  stepOn lib env buflen argCount (s.rest.headD 0) s

/-- What the scanner returns: its output, where the arguments start in it, and what is left of the
line. -/
structure Split where
  buffer : List UInt8
  args : List ℕ
  continuebuffer : Option (List UInt8)

/-- The scanner's loop, for so many rounds at most. -/
def tokLoop : ℕ → Tok → Except Fault Split
  | 0, _ => .error .endless
  | n + 1, s =>
    (step lib env buflen argCount s).bind fun r =>
      if r.2 then (put buflen r.1.buffer [0]).map (⟨·, r.1.args, r.1.continuebuffer⟩)
      else tokLoop n r.1

/-- The scanner's first state. -/
def tokStart (inbuffer : List UInt8) : Tok := ⟨.initial, inbuffer, [], [], 0, [], none⟩

/-- A string of the output. -/
def stringAt (buffer : List UInt8) (i : ℕ) : List UInt8 := (buffer.drop i).takeWhile (· ≠ 0)

/-- `tokenize_command`: the arguments, and what is left of the line.  It needs eight rounds for
each character at most. -/
def tokenizeCommand (inbuffer : List UInt8) :
    Except Fault (List (List UInt8) × Option (List UInt8)) :=
  (tokLoop lib env buflen argCount (8 * (inbuffer.length + 1)) (tokStart inbuffer)).map
    fun r => (r.args.map (stringAt r.buffer), r.continuebuffer)

end Scanner

/-! ### Fields -/

/-- A field, and whether something ends it before the line does. -/
inductive Field
  | plain (s : List UInt8) (ended : Bool)
  | quoted (s : List UInt8) (ended : Bool)
  | var (name : List UInt8)
  deriving DecidableEq

/-- What ends a field without quotes. -/
def isSep (c : UInt8) : Bool := isspace c || c == semicolon

/-- **The fields of a command** and what is behind its `;`. -/
def splitCommand : ℕ → List UInt8 → List Field × Option (List UInt8)
  | 0, _ => ([], none)
  | n + 1, line =>
    match line.dropWhile isspace with
    | [] => ([], none)
    | c :: l =>
      if c = semicolon then ([], some l)
      else if c = quote then
        match l.dropWhile (· ≠ quote) with
        | [] => ([.quoted l false], none)
        | _ :: rest =>
          let r := splitCommand n rest
          (.quoted (l.takeWhile (· ≠ quote)) true :: r.1, r.2)
      else if c = dollar then
        let r := splitCommand n (l.dropWhile fun c => !isSep c)
        (.var (l.takeWhile fun c => !isSep c) :: r.1, r.2)
      else
        let rest := (c :: l).dropWhile fun c => !isSep c
        let r := splitCommand n rest
        (.plain ((c :: l).takeWhile fun c => !isSep c) (!rest.isEmpty) :: r.1, r.2)

/-! ### What the scanner writes -/

section Emit

variable {Env : Type} (lib : EnvLib Env) (env : Env) (buflen : ℕ)

/-- A field in the output buffer. -/
def emitField (last : Bool) (buffer : List UInt8) : Field → Except Fault (List UInt8)
  | .plain s ended => put buflen buffer (s ++ if ended then [0] else [])
  | .quoted s ended =>
    put buflen buffer (s ++ if ended then (if last then [0] else [0, quote]) else [])
  | .var name => putVar lib env buflen buffer name

/-- The fields, up to so many. -/
def emitFields : ℕ → List Field → List UInt8 → List ℕ → Except Fault (List UInt8 × List ℕ)
  | 0, _, buffer, args => .ok (buffer, args)
  | _ + 1, [], buffer, args => .ok (buffer, args)
  | n + 1, f :: fs, buffer, args =>
    (emitField lib env buflen (n = 0) buffer f).bind fun b =>
      emitFields n fs b (args ++ [buffer.length])

end Emit

/-! ### A word at a time -/

section Words

variable {Env : Type} {lib : EnvLib Env} {env : Env} {buflen argCount : ℕ}
variable {args : List ℕ} {str : ℕ} {varname buffer : List UInt8} {cont : Option (List UInt8)}

theorem ok_bind {α β : Type} (a : α) (g : α → Except Fault β) : (Except.ok a).bind g = g a := rfl

theorem put_append (buffer s t : List UInt8) :
    put buflen buffer (s ++ t) = (put buflen buffer s).bind (put buflen · t) := by
  have hlen : (s ++ t).length = s.length + t.length := List.length_append
  have hlen' : (buffer ++ s).length = buffer.length + s.length := List.length_append
  unfold put
  by_cases hs : s = []
  · subst hs
    simp only [List.nil_append, true_or, if_true, List.append_nil]
    rfl
  · by_cases hfit : buffer.length + s.length ≤ buflen
    · have hs' : s = [] ∨ buffer.length + s.length ≤ buflen := .inr hfit
      simp only [if_pos hs', ok_bind, List.append_assoc]
      by_cases ht : t = []
      · subst ht
        rw [List.append_nil, if_pos hs', if_pos (.inl rfl)]
      · refine if_congr ?_ rfl rfl
        simp only [List.append_eq_nil_iff, hs, ht, false_and, false_or]
        omega
    · rw [if_neg, if_neg (by tauto)]
      · rfl
      · simp only [List.append_eq_nil_iff, hs, false_and, false_or]
        omega

theorem step_word {c : UInt8} (rest : List UInt8) (h0 : c ≠ 0) (hc : isSep c = false) :
    step lib env buflen argCount ⟨.inToken, c :: rest, buffer, args, str, varname, cont⟩ =
      (put buflen buffer [c]).map fun b =>
        (⟨.inToken, rest, b, args, str, varname, cont⟩, false) := by
  have hsep : ¬ (isspace c = true ∨ c = semicolon) := by simpa [isSep] using hc
  change stepOn lib env buflen argCount c _ = _
  simp only [stepOn, if_neg h0, if_neg hsep, List.tail_cons]

theorem tokLoop_inToken (w rest : List UInt8) (h0 : 0 ∉ w) (hw : ∀ c ∈ w, isSep c = false)
    (buffer : List UInt8) (n : ℕ) :
    tokLoop lib env buflen argCount (n + w.length)
        ⟨.inToken, w ++ rest, buffer, args, str, varname, cont⟩ =
      (put buflen buffer w).bind fun b =>
        tokLoop lib env buflen argCount n ⟨.inToken, rest, b, args, str, varname, cont⟩ := by
  induction w generalizing buffer with
  | nil => simp [put, Except.bind]
  | cons c w ih =>
    obtain ⟨hc, hrest⟩ := List.forall_mem_cons.1 hw
    obtain ⟨hc0, hw0⟩ := List.ne_and_not_mem_of_not_mem_cons h0
    rw [← List.singleton_append, put_append, List.length_append, List.length_singleton,
      show n + (1 + w.length) = n + w.length + 1 by omega, tokLoop, List.append_assoc,
      List.singleton_append, step_word _ (Ne.symm hc0) hc]
    cases put buflen buffer [c] with
    | error e => rfl
    | ok b => exact ih hw0 hrest b

/-- What is between quotes is copied. -/
theorem tokLoop_inQuotedToken (w rest : List UInt8) (h0 : 0 ∉ w) (hw : quote ∉ w)
    (buffer : List UInt8) (n : ℕ) :
    tokLoop lib env buflen argCount (n + w.length)
        ⟨.inQuotedToken, w ++ rest, buffer, args, str, varname, cont⟩ =
      (put buflen buffer w).bind fun b =>
        tokLoop lib env buflen argCount n ⟨.inQuotedToken, rest, b, args, str, varname, cont⟩ := by
  induction w generalizing buffer with
  | nil => simp [put, Except.bind]
  | cons c w ih =>
    obtain ⟨hc, hrest⟩ := List.ne_and_not_mem_of_not_mem_cons hw
    obtain ⟨hc0, hw0⟩ := List.ne_and_not_mem_of_not_mem_cons h0
    have hstep : step lib env buflen argCount
        ⟨.inQuotedToken, c :: (w ++ rest), buffer, args, str, varname, cont⟩ =
          (put buflen buffer [c]).map fun b =>
            (⟨.inQuotedToken, w ++ rest, b, args, str, varname, cont⟩, false) := by
      change stepOn lib env buflen argCount c _ = _
      simp only [stepOn, if_neg (Ne.symm hc0), if_neg (Ne.symm hc), List.tail_cons]
    rw [← List.singleton_append, put_append, List.length_append, List.length_singleton,
      show n + (1 + w.length) = n + w.length + 1 by omega, tokLoop, List.append_assoc,
      List.singleton_append, hstep]
    cases put buflen buffer [c] with
    | error e => rfl
    | ok b => exact ih hw0 hrest b

theorem tokLoop_inVar (w rest : List UInt8) (h0 : 0 ∉ w) (hw : ∀ c ∈ w, isSep c = false)
    (varname : List UInt8) (hlen : varname.length + w.length ≤ varnameLen) (n : ℕ) :
    tokLoop lib env buflen argCount (n + w.length)
        ⟨.inVar, w ++ rest, buffer, args, str, varname, cont⟩ = tokLoop lib env buflen argCount n
        ⟨.inVar, rest, buffer, args, str, varname ++ w, cont⟩ := by
  induction w generalizing varname with
  | nil => simp
  | cons c w ih =>
    obtain ⟨hc, hrest⟩ := List.forall_mem_cons.1 hw
    obtain ⟨hc0, hw0⟩ := List.ne_and_not_mem_of_not_mem_cons h0
    rw [List.length_cons] at hlen
    have hsep : ¬ (c = 0 ∨ isspace c = true ∨ c = semicolon) := by
      simp only [isSep, Bool.or_eq_false_iff, beq_eq_false_iff_ne] at hc
      simp [hc, Ne.symm hc0]
    have hstep : step lib env buflen argCount
        ⟨.inVar, c :: (w ++ rest), buffer, args, str, varname, cont⟩ =
          .ok (⟨.inVar, w ++ rest, buffer, args, str, varname ++ [c], cont⟩, false) := by
      change stepOn lib env buflen argCount c _ = _
      simp only [stepOn, if_neg hsep, List.tail_cons]
      rw [if_pos (by omega)]
    rw [List.length_cons, show n + (w.length + 1) = n + w.length + 1 by omega, tokLoop,
      List.cons_append, hstep]
    change tokLoop lib env buflen argCount (n + w.length)
      ⟨.inVar, w ++ rest, buffer, args, str, varname ++ [c], cont⟩ = _
    rw [ih hw0 hrest _ (by rw [List.length_append, List.length_singleton]; omega),
      List.append_assoc]
    rfl

theorem tokLoop_inSpace (w rest : List UInt8) (h0 : 0 ∉ w) (hw : ∀ c ∈ w, isspace c = true)
    (n : ℕ) :
    tokLoop lib env buflen argCount (n + w.length)
        ⟨.inSpace, w ++ rest, buffer, args, str, varname, cont⟩ =
      tokLoop lib env buflen argCount n ⟨.inSpace, rest, buffer, args, str, varname, cont⟩ := by
  induction w with
  | nil => simp
  | cons c w ih =>
    obtain ⟨hc, hrest⟩ := List.forall_mem_cons.1 hw
    obtain ⟨hc0, hw0⟩ := List.ne_and_not_mem_of_not_mem_cons h0
    have hsemi : c ≠ semicolon := by
      rintro rfl
      exact absurd hc (by decide)
    have hstep : step lib env buflen argCount
        ⟨.inSpace, c :: (w ++ rest), buffer, args, str, varname, cont⟩ =
          .ok (⟨.inSpace, w ++ rest, buffer, args, str, varname, cont⟩, false) := by
      change stepOn lib env buflen argCount c _ = _
      simp only [stepOn, if_neg (Ne.symm hc0), if_neg hsemi, hc, not_true, if_false,
        List.tail_cons]
    rw [List.length_cons, show n + (w.length + 1) = n + w.length + 1 by omega, tokLoop,
      List.cons_append, hstep]
    exact ih hw0 hrest

end Words

end Console
end LittleKernel
