/-
# Running a line

`lib/console/console.c`: `command_loop` on one line.

A command's fields are written to the output buffer one behind the other, so the arguments are
what they should be exactly when the fields have room there.  Where the arguments are full the
rest of the line is not handed back.
-/

import LittleKernel.Console.Fields

namespace LittleKernel
namespace Console

open Bytes

/-- `MAX_NUM_ARGS` and `outbuflen`. -/
def maxNumArgs : ℕ := 16
def outbuflen : ℕ := 1024

/-! ### The loop -/

/-- The rest of the console: the environment, and what a command does to it.  The second
component says that the command aborts the script. -/
structure Shell (Env : Type) where
  lib : EnvLib Env
  run : List (List UInt8) → Env → Env × Bool

section Loop

variable {Env : Type} (sh : Shell Env)

/-- `command_loop` on a line, with the commands that have been looked up so far. -/
def lineLoop : ℕ → List UInt8 → Env → List (List (List UInt8)) →
    Except Fault (Env × List (List (List UInt8)))
  | 0, _, _, _ => .error .endless
  | n + 1, buffer, env, done =>
    (tokenizeCommand sh.lib env outbuflen maxNumArgs buffer).bind fun r =>
      if r.1 = [] then
        match r.2 with
        | none => .ok (env, done)
        | some rest => lineLoop n rest env done
      else
        let res := sh.run r.1 env
        if res.2 then .ok (res.1, done ++ [r.1])
        else
          match r.2 with
          | none => .ok (res.1, done ++ [r.1])
          | some rest => lineLoop n rest res.1 (done ++ [r.1])

/-! ### What should be run -/

/-- The commands of a line. -/
def commands : ℕ → List UInt8 → List (List Field)
  | 0, _ => []
  | n + 1, line =>
    let r := splitCommand (line.length + 1) line
    r.1 :: match r.2 with
      | none => []
      | some rest => commands n rest

/-- What a field is replaced by; a variable that is not set by `0`. -/
def Field.text (env : Env) : Field → List UInt8
  | .plain s _ => s
  | .quoted s _ => s
  | .var name =>
    match sh.lib.value env name with
    | none => [zero]
    | some v => v.bytes

/-- The arguments of a command, up to the limit. -/
def arguments (env : Env) (fs : List Field) : List (List UInt8) :=
  (fs.take maxNumArgs).map (Field.text sh env)

/-- The commands that are run, each in the environment that the one before it leaves. -/
def runCommands : List (List Field) → Env → Env × List (List (List UInt8))
  | [], env => (env, [])
  | fs :: l, env =>
    if fs = [] then runCommands l env
    else
      let res := sh.run (arguments sh env fs) env
      if res.2 then (res.1, [arguments sh env fs])
      else ((runCommands l res.1).1, arguments sh env fs :: (runCommands l res.1).2)

/-- A line of the console: at most 127 characters. -/
abbrev Line := { s : CString // s.bytes.length ≤ 127 }

/-- **The commands of a line are run, and nothing else happens.** -/
def Splits (line : Line) (env : Env) : Prop :=
  lineLoop sh (line.1.bytes.length + 1) line.1.bytes env [] =
    .ok (runCommands sh (commands (line.1.bytes.length + 1) line.1.bytes) env)

/-! ### When they are -/

/-- What ends a field in the output buffer. -/
def Field.tail (last : Bool) : Field → List UInt8
  | .plain _ ended => if ended then [0] else []
  | .quoted _ ended => if ended then (if last then [0] else [0, quote]) else []
  | .var _ => [0]

/-- The fields in the output buffer, up to so many. -/
def fieldsBytes (env : Env) : ℕ → List Field → List UInt8
  | 0, _ => []
  | _ + 1, [] => []
  | n + 1, f :: fs => f.text sh env ++ f.tail (n = 0) ++ fieldsBytes env n fs

/-- **A line is run as it should be** if the arguments of each command have room in the output
buffer, and only the last command that there is has as many as the limit. -/
def Meets : List (List Field) → Env → Prop
  | [], _ => True
  | fs :: l, env =>
    if fs = [] then Meets l env
    else (fieldsBytes sh env maxNumArgs fs).length < outbuflen ∧
      let res := sh.run (arguments sh env fs) env
      (res.2 = true ∨ if maxNumArgs ≤ fs.length then ∀ gs ∈ l, gs = [] else Meets l res.1)

end Loop

/-! ### Fields in the output buffer -/

/-- A field that ends with the line. -/
def Field.ended : Field → Bool
  | .plain _ ended => ended
  | .quoted _ ended => ended
  | .var _ => true

/-- Only the last field of a command may end with the line, and no field has a NUL. -/
def WellFormed : List Field → Prop
  | [] => True
  | f :: fs => (fs ≠ [] → f.ended = true) ∧ (match f with
      | .plain s _ => 0 ∉ s
      | .quoted s _ => 0 ∉ s
      | .var _ => True) ∧ WellFormed fs

theorem splitCommand_wellFormed (n : ℕ) (line : List UInt8) (h0 : 0 ∉ line) :
    WellFormed (splitCommand n line).1 := by
  induction n generalizing line with
  | zero => trivial
  | succ n ih =>
    rw [splitCommand]
    have hd0 : 0 ∉ line.dropWhile isspace := fun h => h0 (List.dropWhile_subset _ h)
    cases hd : line.dropWhile isspace with
    | nil => trivial
    | cons c l =>
      rw [hd] at hd0
      have hl0 := (List.ne_and_not_mem_of_not_mem_cons hd0).2
      simp only
      split_ifs with hsemi hquote hdollar
      · trivial
      · cases hq : l.dropWhile (· ≠ quote) with
        | nil => exact ⟨fun h => absurd rfl h, hl0, trivial⟩
        | cons q rest =>
          refine ⟨fun _ => rfl, fun h => hl0 (List.takeWhile_subset _ h), ih _ fun h => ?_⟩
          exact hl0 (List.dropWhile_subset _ (by rw [hq]; exact List.mem_cons_of_mem _ h))
      · exact ⟨fun _ => rfl, trivial, ih _ fun h => hl0 (List.dropWhile_subset _ h)⟩
      · refine ⟨fun h => ?_, fun h => hd0 (List.takeWhile_subset _ h),
          ih _ fun h => hd0 (List.dropWhile_subset _ h)⟩
        -- a field follows, so something ended this one
        cases hr : (c :: l).dropWhile fun c => !isSep c with
        | nil =>
          rw [hr] at h
          exact absurd (by rcases n with _ | n <;> rfl) h
        | cons d rest => rfl

section Emit

variable {Env : Type} {sh : Shell Env} {env : Env} {buflen : ℕ}

theorem stringAt_append (buffer s more : List UInt8) (h0 : 0 ∉ s) :
    stringAt (buffer ++ (s ++ 0 :: more)) buffer.length = s := by
  rw [stringAt, List.drop_left, List.takeWhile_append_of_pos fun c hc => by
    simpa using fun h : c = 0 => h0 (h ▸ hc)]
  simp

theorem put_eq_ok {buffer s b : List UInt8} (h : put buflen buffer s = .ok b) :
    b = buffer ++ s ∧ (s ≠ [] → buffer.length + s.length ≤ buflen) := by
  unfold put at h
  by_cases hfit : s = [] ∨ buffer.length + s.length ≤ buflen
  · rw [if_pos hfit] at h
    exact ⟨(Except.ok.inj h).symm, fun hs => hfit.resolve_left hs⟩
  · rw [if_neg hfit] at h
    cases h

theorem put_of_le {buffer s : List UInt8} (h : buffer.length + s.length ≤ buflen) :
    put buflen buffer s = .ok (buffer ++ s) := if_pos (.inr h)

theorem text_unset {name : List UInt8} (h : sh.lib.value env name = none) :
    (Field.var name).text sh env = [zero] := by simp only [Field.text, h]

theorem text_set {name : List UInt8} {v : CString} (h : sh.lib.value env name = some v) :
    (Field.var name).text sh env = v.bytes := by simp only [Field.text, h]

variable {f : Field} {fs : List Field}

/-- The text of a field has no NUL. -/
theorem text_nonul (h : WellFormed (f :: fs)) :
    0 ∉ f.text sh env := by
  cases f with
  | plain s e => exact h.2.1
  | quoted s e => exact h.2.1
  | var name =>
    cases hv : sh.lib.value env name with
    | none =>
      rw [text_unset hv]
      decide
    | some v =>
      rw [text_set hv]
      exact v.nonul

/-- **A field with room is written as it should be.** -/
theorem emitField_room (sh : Shell Env) (env : Env) {last : Bool} {buffer : List UInt8}
    (hroom : buffer.length + (f.text sh env ++ f.tail last).length < buflen) :
    emitField sh.lib env buflen last buffer f = .ok (buffer ++ (f.text sh env ++ f.tail last)) := by
  cases f with
  | plain s e => exact put_of_le hroom.le
  | quoted s e => exact put_of_le hroom.le
  | var name =>
    rw [List.length_append, show ((Field.var name).tail last).length = 1 from rfl] at hroom
    rw [emitField, putVar, if_pos (by omega)]
    cases hv : sh.lib.value env name with
    | none =>
      rw [text_unset hv] at hroom ⊢
      rw [List.length_singleton] at hroom
      rw [sh.lib.get_unset _ _ _ hv]
      simp only
      rw [put_of_le (by rw [List.length_singleton]; omega), ok_bind, put_of_le
        (by simp only [List.length_append, List.length_singleton]; omega), List.append_assoc]
      rfl
    | some v =>
      rw [text_set hv] at hroom ⊢
      rw [sh.lib.get_fits _ _ _ _ hv (by omega)]
      simp only [List.append_assoc]
      rfl

/-- What is written of a field without room is not its text. -/
theorem emitField_eq_ok {last : Bool} {buffer b : List UInt8}
    (h : emitField sh.lib env buflen last buffer f = .ok b) :
    b = buffer ++ (f.text sh env ++ f.tail last) ∨
      ∃ s, b = buffer ++ (s ++ [0]) ∧ 0 ∉ s ∧ s ≠ f.text sh env := by
  cases f with
  | plain s e => exact .inl (put_eq_ok h).1
  | quoted s e => exact .inl (put_eq_ok h).1
  | var name =>
    rw [emitField, putVar] at h
    by_cases hlt : buffer.length < buflen
    · rw [if_pos hlt] at h
      have hzero (hp : ((put buflen buffer [zero]).bind fun b => put buflen b [0]) = .ok b) :
          b = buffer ++ ([zero] ++ [0]) ∧ buffer.length + 2 ≤ buflen := by
        cases hfirst : put buflen buffer [zero] with
        | error e => rw [hfirst] at hp; cases hp
        | ok mid =>
          rw [hfirst, ok_bind] at hp
          obtain ⟨rfl, -⟩ := put_eq_ok hfirst
          obtain ⟨rfl, hle⟩ := put_eq_ok hp
          have := hle (by simp)
          simp only [List.length_append, List.length_singleton] at this
          exact ⟨List.append_assoc _ _ _, by omega⟩
      cases hv : sh.lib.value env name with
      | none =>
        rw [sh.lib.get_unset _ _ _ hv] at h
        rw [text_unset hv]
        exact .inl (hzero h).1
      | some v =>
        rw [text_set hv]
        rcases Nat.lt_or_ge v.bytes.length (buflen - buffer.length) with hfit | hcut
        · rw [sh.lib.get_fits _ _ _ _ hv hfit] at h
          exact .inl (by rw [← Except.ok.inj h, List.append_assoc]; rfl)
        · right
          cases hg : sh.lib.envGet env name (buflen - buffer.length) with
          | none =>
            rw [hg] at h
            obtain ⟨hb, hle⟩ := hzero h
            refine ⟨[zero], hb, by decide, fun heq => ?_⟩
            have hlen : 1 = v.bytes.length := congrArg List.length heq
            omega
          | some s =>
            rw [hg] at h
            have hs := sh.lib.get_cut _ _ _ _ hv (by omega) hcut s hg
            refine ⟨s.bytes, by rw [← Except.ok.inj h, List.append_assoc], s.nonul,
              fun heq => ?_⟩
            have hlen : s.bytes.length = v.bytes.length := congrArg List.length heq
            omega
    · rw [if_neg hlt] at h
      cases h

theorem tail_cases (f : Field) (last : Bool) :
    (f.ended = true → ∃ t, f.tail last = 0 :: t) ∧ (f.ended = false → f.tail last = []) := by
  cases f with
  | plain s e => cases e <;> simp [Field.ended, Field.tail]
  | quoted s e => cases e <;> cases last <;> simp [Field.ended, Field.tail]
  | var name => simp [Field.ended, Field.tail]

/-- A field's text is read back from the output buffer. -/
theorem stringAt_field (sh : Shell Env) (env : Env) (h : WellFormed (f :: fs)) (n : ℕ)
    (buffer : List UInt8) :
    stringAt (buffer ++ fieldsBytes sh env (n + 1) (f :: fs) ++ [0]) buffer.length =
      f.text sh env := by
  obtain ⟨hended, hopen⟩ := tail_cases f (n = 0)
  rw [fieldsBytes]
  cases he : f.ended with
  | true =>
    obtain ⟨t, ht⟩ := hended he
    have hshape : buffer ++ (f.text sh env ++ f.tail (n = 0) ++ fieldsBytes sh env n fs) ++ [0] =
        buffer ++ (f.text sh env ++ 0 :: (t ++ fieldsBytes sh env n fs ++ [0])) := by
      simp [ht]
    rw [hshape]
    exact stringAt_append _ _ _ (text_nonul h)
  | false =>
    -- the last field of the line
    have hfs : fs = [] := by
      by_contra hne
      rw [h.1 hne] at he
      cases he
    have hshape : buffer ++ (f.text sh env ++ f.tail (n = 0) ++ fieldsBytes sh env n fs) ++ [0] =
        buffer ++ (f.text sh env ++ 0 :: []) := by
      rw [hopen he, hfs]
      rcases n with _ | n <;> simp [fieldsBytes]
    rw [hshape]
    exact stringAt_append _ _ _ (text_nonul h)

/-- **Fields with room are written as they should be.** -/
theorem emitFields_room (sh : Shell Env) (env : Env) {n : ℕ}
    (buffer : List UInt8) (args : List ℕ) (hwf : WellFormed fs)
    (hroom : buffer.length + (fieldsBytes sh env n fs).length < buflen) :
    ∃ starts, emitFields sh.lib env buflen n fs buffer args =
        .ok (buffer ++ fieldsBytes sh env n fs, args ++ starts) ∧
      starts.map (stringAt (buffer ++ fieldsBytes sh env n fs ++ [0])) =
        (fs.take n).map (Field.text sh env) := by
  induction n generalizing fs buffer args with
  | zero => exact ⟨[], by simp [emitFields, fieldsBytes], rfl⟩
  | succ n ih =>
    rcases fs with _ | ⟨f, fs⟩
    · exact ⟨[], by simp [emitFields, fieldsBytes], rfl⟩
    · have hown := stringAt_field sh env hwf n buffer
      rw [fieldsBytes] at hroom hown ⊢
      rw [List.length_append] at hroom
      have hfield : emitField sh.lib env buflen (n = 0) buffer f =
          .ok (buffer ++ (f.text sh env ++ f.tail (n = 0))) := emitField_room sh env (by omega)
      obtain ⟨starts, hemit, hstarts⟩ := ih (buffer ++ (f.text sh env ++ f.tail (n = 0)))
        (args ++ [buffer.length]) hwf.2.2 (by rw [List.length_append]; omega)
      rw [List.append_assoc buffer] at hemit hstarts
      refine ⟨buffer.length :: starts, ?_, ?_⟩
      · rw [emitFields, hfield, ok_bind, hemit, List.append_assoc args]
        rfl
      · rw [List.map_cons, hown, hstarts, List.take_succ_cons, List.map_cons]

/-- **Fields whose texts are read back have had room.** -/
theorem emitFields_exact {n : ℕ} {buffer b : List UInt8} {args args' : List ℕ}
    (h : emitFields sh.lib env buflen n fs buffer args = .ok (b, args')) :
    ∃ starts more, args' = args ++ starts ∧ b = buffer ++ more ∧
      starts.length = (fs.take n).length ∧
      (starts.map (stringAt (b ++ [0])) = (fs.take n).map (Field.text sh env) →
        more = fieldsBytes sh env n fs) := by
  induction n generalizing fs buffer args with
  | zero =>
    rw [emitFields] at h
    cases h
    exact ⟨[], [], (List.append_nil _).symm, (List.append_nil _).symm, rfl, fun _ => rfl⟩
  | succ n ih =>
    rcases fs with _ | ⟨f, fs⟩
    · rw [emitFields] at h
      cases h
      exact ⟨[], [], (List.append_nil _).symm, (List.append_nil _).symm, rfl, fun _ => rfl⟩
    · rw [emitFields] at h
      cases hf : emitField sh.lib env buflen (n = 0) buffer f with
      | error e => rw [hf] at h; cases h
      | ok mid =>
        rw [hf, ok_bind] at h
        obtain ⟨starts, more, hargs, hb, hlen, hexact⟩ := ih h
        rw [List.append_assoc] at hargs
        rcases emitField_eq_ok hf with hmid | ⟨s, hmid, hs0, hne⟩
        · refine ⟨buffer.length :: starts, f.text sh env ++ f.tail (n = 0) ++ more, hargs,
            by rw [hb, hmid, List.append_assoc], by simp [hlen], fun heq => ?_⟩
          rw [List.map_cons, List.take_succ_cons, List.map_cons] at heq
          rw [fieldsBytes, hexact (List.cons.inj heq).2]
        · refine ⟨buffer.length :: starts, s ++ [0] ++ more, hargs,
            by rw [hb, hmid, List.append_assoc], by simp [hlen], fun heq => absurd ?_ hne⟩
          rw [List.map_cons, List.take_succ_cons, List.map_cons] at heq
          have hread : stringAt (b ++ [0]) buffer.length = s := by
            rw [hb, hmid, show buffer ++ (s ++ [0]) ++ more ++ [0] =
              buffer ++ (s ++ 0 :: (more ++ [0])) by simp]
            exact stringAt_append _ _ _ hs0
          rw [← hread]
          exact (List.cons.inj heq).1

end Emit

/-! ### A command -/

section Command

variable {Env : Type} {sh : Shell Env} {env : Env} {line : List UInt8}

theorem tokenizeCommand_eq (h0 : 0 ∉ line) (hline : line.length ≤ 127) :
    tokenizeCommand sh.lib env outbuflen maxNumArgs line =
      (finishFields sh.lib env outbuflen maxNumArgs [] [] (splitCommand (line.length + 1) line)).map
          fun r => (r.args.map (stringAt r.buffer), r.continuebuffer) := by
  rw [tokenizeCommand, tokStart, tokLoop_fields (line.length + 1) (.inl rfl) line h0 (by omega)
    (by rw [varnameLen]; omega) _ le_rfl [] [] (by decide)]

/-- What is left of the line behind a command with so many fields. -/
def leftOver (r : List Field × Option (List UInt8)) : Option (List UInt8) :=
  if maxNumArgs ≤ r.1.length then none else r.2

/-- **A command with room is split as it should be.** -/
theorem tokenizeCommand_room (h0 : 0 ∉ line) (hline : line.length ≤ 127)
    (hroom : (fieldsBytes sh env maxNumArgs (splitCommand (line.length + 1) line).1).length <
      outbuflen) :
    tokenizeCommand sh.lib env outbuflen maxNumArgs line =
      .ok (arguments sh env (splitCommand (line.length + 1) line).1,
        leftOver (splitCommand (line.length + 1) line)) := by
  obtain ⟨starts, hemit, hstarts⟩ := emitFields_room sh env [] []
    (splitCommand_wellFormed (line.length + 1) line h0)
    (by rw [List.length_nil, Nat.zero_add]; exact hroom)
  rw [List.nil_append] at hemit hstarts
  rw [List.nil_append] at hemit
  rw [tokenizeCommand_eq h0 hline, finishFields, List.length_nil, Nat.sub_zero, hemit, ok_bind,
    put_of_le (by rw [List.length_singleton]; exact hroom)]
  simp only [Except.map, hstarts, Nat.zero_add]
  rfl

/-- A command that is split as it should be has had room, and one with fields has arguments. -/
theorem room_of_tokenizeCommand (h0 : 0 ∉ line) (hline : line.length ≤ 127)
    {a : List (List UInt8)} {c : Option (List UInt8)}
    (h : tokenizeCommand sh.lib env outbuflen maxNumArgs line = .ok (a, c)) :
    (a = arguments sh env (splitCommand (line.length + 1) line).1 →
      (fieldsBytes sh env maxNumArgs (splitCommand (line.length + 1) line).1).length < outbuflen) ∧
    (a = [] → (splitCommand (line.length + 1) line).1 = []) := by
  rw [tokenizeCommand_eq h0 hline, finishFields, List.length_nil, Nat.sub_zero] at h
  cases hemit : emitFields sh.lib env outbuflen maxNumArgs
      (splitCommand (line.length + 1) line).1 [] [] with
  | error e => rw [hemit] at h; cases h
  | ok r =>
    obtain ⟨b, starts'⟩ := r
    rw [hemit, ok_bind] at h
    obtain ⟨starts, more, hargs, hb, hcount, hexact⟩ := emitFields_exact hemit
    rw [List.nil_append] at hargs hb
    subst hargs hb
    cases hput : put outbuflen b [0] with
    | error e => rw [hput] at h; cases h
    | ok final =>
      obtain ⟨rfl, hle⟩ := put_eq_ok hput
      rw [hput] at h
      simp only [Except.map, Except.ok.injEq, Prod.mk.injEq, Nat.zero_add] at h
      have hlen := hle (by simp)
      rw [List.length_singleton] at hlen
      refine ⟨fun ha => ?_, fun ha => ?_⟩
      · rw [← hexact (h.1.trans ha)]
        omega
      · have hnil := List.map_eq_nil_iff.1 (h.1.trans ha)
        rw [hnil] at hcount
        rcases hfs : (splitCommand (line.length + 1) line).1 with _ | ⟨f, fs⟩
        · rfl
        · rw [hfs] at hcount
          simp [maxNumArgs] at hcount

end Command

/-! ### A line -/

section Line

variable {Env : Type} {sh : Shell Env}

theorem runCommands_of_empty {l : List (List Field)} (h : ∀ fs ∈ l, fs = []) (env : Env) :
    runCommands sh l env = (env, []) := by
  induction l with
  | nil => rfl
  | cons fs l ih =>
    obtain ⟨hfs, hl⟩ := List.forall_mem_cons.1 h
    rw [runCommands, if_pos hfs, ih hl]

theorem runCommands_ne_nil {l : List (List Field)} (h : ¬ ∀ fs ∈ l, fs = []) (env : Env) :
    (runCommands sh l env).2 ≠ [] := by
  induction l with
  | nil => exact absurd (fun fs h => nomatch h) h
  | cons fs l ih =>
    rw [runCommands]
    by_cases hfs : fs = []
    · rw [if_pos hfs]
      refine ih fun hl => h ?_
      rintro gs (_ | ⟨_, hgs⟩)
      exacts [hfs, hl gs hgs]
    · rw [if_neg hfs]
      simp only
      split_ifs <;> simp

theorem arguments_eq_nil_iff {env : Env} {fs : List Field} :
    arguments sh env fs = [] ↔ fs = [] := by
  unfold arguments
  rw [List.map_eq_nil_iff]
  rcases fs with _ | ⟨f, fs⟩
  · exact iff_of_true rfl rfl
  · exact iff_of_false (by simp [maxNumArgs]) (by simp)

/-- What is behind a command is the end of the line. -/
theorem splitCommand_suffix {n : ℕ} {line rest : List UInt8}
    (h : (splitCommand n line).2 = some rest) : rest <:+ line ∧ rest.length < line.length := by
  induction n generalizing line with
  | zero => cases h
  | succ n ih =>
    rw [splitCommand] at h
    have hsuffix := List.dropWhile_suffix (p := isspace) (l := line)
    cases hd : line.dropWhile isspace with
    | nil =>
      rw [hd] at h
      cases h
    | cons c l =>
      rw [hd] at h hsuffix
      have hl : l <:+ line := (List.suffix_cons c l).trans hsuffix
      have hlen := hsuffix.length_le
      rw [List.length_cons] at hlen
      have hbehind {r : List UInt8} (hr : r <:+ c :: l)
          (h : (splitCommand n r).2 = some rest) : rest <:+ line ∧ rest.length < line.length :=
        ⟨(ih h).1.trans (hr.trans hsuffix), (ih h).2.trans_le (hr.trans hsuffix).length_le⟩
      simp only at h
      split_ifs at h with hsemi hquote hdollar
      · cases h
        exact ⟨hl, by omega⟩
      · cases hq : l.dropWhile (· ≠ quote) with
        | nil => rw [hq] at h; cases h
        | cons q r =>
          rw [hq] at h
          refine hbehind (((List.suffix_cons q r).trans ?_).trans (List.suffix_cons c l)) h
          rw [← hq]
          exact List.dropWhile_suffix _
      · exact hbehind ((List.dropWhile_suffix _).trans (List.suffix_cons c l)) h
      · exact hbehind (List.dropWhile_suffix _) h

/-- The loop only adds to the commands that have been looked up. -/
theorem lineLoop_extends {n : ℕ} {line : List UInt8} {env env' : Env}
    {done done' : List (List (List UInt8))}
    (h : lineLoop sh n line env done = .ok (env', done')) : ∃ more, done' = done ++ more := by
  induction n generalizing line env done with
  | zero => cases h
  | succ n ih =>
    rw [lineLoop] at h
    cases ht : tokenizeCommand sh.lib env outbuflen maxNumArgs line with
    | error e => rw [ht] at h; cases h
    | ok r =>
      rw [ht, ok_bind] at h
      have hmore {m : List (List (List UInt8))} (h : ∃ more, done' = done ++ m ++ more) :
          ∃ more, done' = done ++ more := by
        obtain ⟨more, hm⟩ := h
        exact ⟨m ++ more, by rw [hm, List.append_assoc]⟩
      split_ifs at h
      · cases hr : r.2 with
        | none =>
          rw [hr] at h
          cases h
          exact ⟨[], (List.append_nil _).symm⟩
        | some rest => rw [hr] at h; exact ih h
      · simp only at h
        split_ifs at h
        · cases h
          exact ⟨[r.1], rfl⟩
        · cases hr : r.2 with
          | none =>
            rw [hr] at h
            cases h
            exact ⟨[r.1], rfl⟩
          | some rest => rw [hr] at h; exact hmore (ih h)

/-- **The loop over a line**: from any commands that have been looked up before. -/
theorem lineLoop_iff (n : ℕ) (line : List UInt8) (h0 : 0 ∉ line) (hline : line.length ≤ 127)
    (hn : line.length < n) (env : Env) (done : List (List (List UInt8))) :
    lineLoop sh n line env done = .ok ((runCommands sh (commands n line) env).1,
      done ++ (runCommands sh (commands n line) env).2) ↔ Meets sh (commands n line) env := by
  induction n generalizing line env done with
  | zero => omega
  | succ n ih =>
    rw [lineLoop, commands]
    simp only
    generalize hl : (match (splitCommand (line.length + 1) line).2 with
      | none => []
      | some rest => commands n rest) = l
    have hnext (env : Env) (done : List (List (List UInt8))) :
        (match (splitCommand (line.length + 1) line).2 with
          | none => Except.ok (env, done)
          | some rest => lineLoop sh n rest env done) =
            .ok ((runCommands sh l env).1, done ++ (runCommands sh l env).2) ↔
          Meets sh l env := by
      cases hr : (splitCommand (line.length + 1) line).2 with
      | none =>
        rw [hr] at hl
        subst hl
        exact iff_of_true (by simp [runCommands]) trivial
      | some rest =>
        rw [hr] at hl
        subst hl
        obtain ⟨hsuffix, hlt⟩ := splitCommand_suffix hr
        exact ih rest (fun h => h0 (hsuffix.subset h)) (by omega) (by omega) env done
    by_cases hroom : (fieldsBytes sh env maxNumArgs
        (splitCommand (line.length + 1) line).1).length < outbuflen
    · rw [tokenizeCommand_room h0 hline hroom, ok_bind]
      simp only [arguments_eq_nil_iff, leftOver]
      generalize splitCommand (line.length + 1) line = r at *
      by_cases hfs : r.1 = []
      · have hfew : ¬ maxNumArgs ≤ r.1.length := by simp [hfs, maxNumArgs]
        rw [if_pos hfs, if_neg hfew, runCommands, if_pos hfs, Meets, if_pos hfs]
        exact hnext env done
      · rw [if_neg hfs, runCommands, if_neg hfs, Meets, if_neg hfs]
        simp only [hroom, true_and]
        by_cases habort : (sh.run (arguments sh env r.1) env).2 = true
        · simp only [habort, if_true, true_or]
        · simp only [habort, Bool.false_eq_true, if_false, false_or]
          by_cases hfull : maxNumArgs ≤ r.1.length
          · simp only [if_pos hfull]
            by_cases hempty : ∀ gs ∈ l, gs = []
            · rw [runCommands_of_empty hempty]
              exact iff_of_true rfl hempty
            · refine iff_of_false (fun heq => ?_) hempty
              have hlist := (Prod.mk.inj (Except.ok.inj heq)).2
              have htail := (List.cons.inj (List.append_cancel_left hlist)).2
              exact runCommands_ne_nil hempty _ htail.symm
          · simp only [if_neg hfull]
            have h := hnext (sh.run (arguments sh env r.1) env).1
              (done ++ [arguments sh env r.1])
            rwa [List.append_assoc, List.singleton_append] at h
    · have hfs : (splitCommand (line.length + 1) line).1 ≠ [] := by
        intro h
        rw [h] at hroom
        exact hroom (show (fieldsBytes sh env maxNumArgs []).length < outbuflen from
          Nat.succ_pos 1023)
      rw [Meets, if_neg hfs]
      refine iff_of_false (fun heq => ?_) fun h => hroom h.1
      cases ht : tokenizeCommand sh.lib env outbuflen maxNumArgs line with
      | error e => rw [ht] at heq; cases heq
      | ok r =>
        obtain ⟨a, c⟩ := r
        obtain ⟨hargs, hnil⟩ := room_of_tokenizeCommand h0 hline ht
        rw [ht, ok_bind, if_neg fun h => hfs (hnil h)] at heq
        -- the first command looked up is not the one that should be
        have hfirst : ∃ more, done ++ (runCommands sh
            ((splitCommand (line.length + 1) line).1 :: l) env).2 = done ++ [a] ++ more := by
          simp only at heq
          split_ifs at heq with habort
          · exact ⟨[], by rw [← (Prod.mk.inj (Except.ok.inj heq)).2, List.append_nil]⟩
          · cases c with
            | none => exact ⟨[], by rw [← (Prod.mk.inj (Except.ok.inj heq)).2, List.append_nil]⟩
            | some rest => exact lineLoop_extends heq
        obtain ⟨more, hmore⟩ := hfirst
        rw [List.append_assoc] at hmore
        have hrun := List.append_cancel_left hmore
        rw [runCommands, if_neg hfs] at hrun
        simp only at hrun
        refine hroom (hargs ?_)
        split_ifs at hrun <;> exact (List.cons.inj hrun).1.symm

end Line

/-- **Command splitting**: for every line, every environment and all effects of the commands, the
commands of the line are run as they should be exactly when the arguments of each have room in
the output buffer and no command follows one whose arguments are full. -/
theorem commandLoop_splits_iff {Env : Type} (sh : Shell Env) (line : Line) (env : Env) :
    Splits sh line env ↔ Meets sh (commands (line.1.bytes.length + 1) line.1.bytes) env :=
  lineLoop_iff _ _ line.1.nonul line.2 (Nat.lt_succ_self _) env []

/-- `strlcpy` of a variable's value. -/
def strlcpyGet (env : List UInt8 → Option CString) (name : List UInt8) (len : ℕ) : Option CString :=
  (env name).map fun v => ⟨v.bytes.take (len - 1), fun h => v.nonul (List.take_subset _ _ h)⟩

theorem strlcpyGet_unset (env : List UInt8 → Option CString) (name : List UInt8) (len : ℕ)
    (h : env name = none) : strlcpyGet env name len = none := by
  rw [strlcpyGet, h, Option.map_none]

theorem strlcpyGet_fits (env : List UInt8 → Option CString) (name : List UInt8) (len : ℕ)
    (v : CString) (h : env name = some v) (hlt : v.bytes.length < len) :
    strlcpyGet env name len = some v := by
  rw [strlcpyGet, h, Option.map_some]
  simp only [List.take_of_length_le (show v.bytes.length ≤ len - 1 by omega)]

theorem strlcpyGet_cut (env : List UInt8 → Option CString) (name : List UInt8) (len : ℕ)
    (v : CString) (h : env name = some v) (hpos : 0 < len) (_ : len ≤ v.bytes.length) (s : CString)
    (hs : strlcpyGet env name len = some s) : s.bytes.length < len := by
  rw [strlcpyGet, h, Option.map_some, Option.some.injEq] at hs
  rw [← hs, List.length_take]
  omega

/-- Variables whose values are copied with `strlcpy`. -/
def strlcpyLib : EnvLib (List UInt8 → Option CString) where
  value env name := env name
  envGet := strlcpyGet
  get_unset := strlcpyGet_unset
  get_fits := strlcpyGet_fits
  get_cut := strlcpyGet_cut

/-- Sixteen times `a`, then `;b`. -/
def fullLine : Line :=
  ⟨⟨(List.replicate 16 [97, 32]).flatten ++ [59, 98], by decide⟩, by decide⟩

/-- Sixteen arguments, and the command behind them is dropped. -/
theorem fullCommand_not_splits : ¬ ∀ (sh : Shell (List UInt8 → Option CString)) (line : Line)
    (env : List UInt8 → Option CString), Splits sh line env := by
  intro hall
  have hs := hall ⟨strlcpyLib, fun _ env => (env, false)⟩ fullLine fun _ => none
  have h := (lineLoop_iff _ _ fullLine.1.nonul fullLine.2 (Nat.lt_succ_self _) _ _).1 hs
  have hcommands : commands (fullLine.1.bytes.length + 1) fullLine.1.bytes =
      [List.replicate 16 (.plain [97] true), [.plain [98] false]] := by decide
  rw [hcommands] at h
  rcases h.2 with h | h
  · cases h
  · exact absurd (h [.plain [98] false] (by simp)) (by simp)

end Console
end LittleKernel
