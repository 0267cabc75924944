/-
# The scanner reads fields

`lib/console/console.c`: `tokenize_command`.

Between two fields the scanner does not remember anything but the output buffer and the
arguments (`tokLoop_fields`), so what it returns is what its fields are written as.
-/

import LittleKernel.Console.Tokenize

namespace LittleKernel
namespace Console

open Bytes

section Scan

variable {Env : Type} {lib : EnvLib Env} {env : Env} {buflen argCount : ℕ}
variable {args : List ℕ} {str : ℕ} {varname buffer : List UInt8} {cont : Option (List UInt8)}

/-! ### Between two fields -/

/-- The states in which a field is looked for. -/
def Between (st : State) : Prop := st = .initial ∨ st = .nextField ∨ st = .inSpace

variable {st : State}

theorem tokLoop_end (hst : Between st) (n : ℕ) :
    tokLoop lib env buflen argCount (n + 1) ⟨st, [], buffer, args, str, varname, cont⟩ =
      (put buflen buffer [0]).map (⟨·, args, cont⟩) := by
  rcases hst with rfl | rfl | rfl <;> rfl

theorem tokLoop_sep (hst : Between st) (rest : List UInt8) (n : ℕ) :
    tokLoop lib env buflen argCount (n + 2)
        ⟨st, semicolon :: rest, buffer, args, str, varname, cont⟩ =
      (put buflen buffer [0]).map (⟨·, args, some rest⟩) := by
  rcases hst with rfl | rfl | rfl <;> rfl

theorem tokLoop_token (hst : Between st) {c : UInt8} (rest : List UInt8)
    (h0 : c ≠ 0) (hspace : isspace c = false) (hsemi : c ≠ semicolon) (n : ℕ) :
    tokLoop lib env buflen argCount (n + 1) ⟨st, c :: rest, buffer, args, str, varname, cont⟩ =
      tokLoop lib env buflen argCount n ⟨.token, c :: rest, buffer, args, str, varname, cont⟩ := by
  have hstep : step lib env buflen argCount
      ⟨st, c :: rest, buffer, args, str, varname, cont⟩ =
        .ok (⟨.token, c :: rest, buffer, args, str, varname, cont⟩, false) := by
    change stepOn lib env buflen argCount c _ = _
    rcases hst with rfl | rfl | rfl <;>
      simp [stepOn, h0, hspace, hsemi]
  rw [tokLoop, hstep]
  rfl

/-- The spaces before a field are skipped. -/
theorem tokLoop_skip (lib : EnvLib Env) (env : Env) (buflen argCount : ℕ) (buffer : List UInt8)
    (args : List ℕ) (str : ℕ) (varname : List UInt8) (cont : Option (List UInt8))
    (hst : st = .initial ∨ st = .nextField) (w rest : List UInt8) (h0 : 0 ∉ w)
    (hw : ∀ c ∈ w, isspace c = true) :
    ∃ st' k, Between st' ∧ k ≤ w.length + 2 ∧ ∀ n, tokLoop lib env buflen argCount (n + k)
        ⟨st, w ++ rest, buffer, args, str, varname, cont⟩ = tokLoop lib env buflen argCount n
        ⟨st', rest, buffer, args, str, varname, cont⟩ := by
  rcases w with _ | ⟨c, w⟩
  · exact ⟨st, 0, by rcases hst with rfl | rfl <;> simp [Between], by omega, fun n => rfl⟩
  · refine ⟨.inSpace, (c :: w).length + 2, .inr (.inr rfl), le_rfl, fun n => ?_⟩
    have hc := (List.forall_mem_cons.1 hw).1
    have hc0 := (List.ne_and_not_mem_of_not_mem_cons h0).1
    have hstep : step lib env buflen argCount
        ⟨st, c :: w ++ rest, buffer, args, str, varname, cont⟩ =
          .ok (⟨.space, c :: w ++ rest, buffer, args, str, varname, cont⟩, false) := by
      change stepOn lib env buflen argCount c _ = _
      rcases hst with rfl | rfl <;> simp [stepOn, Ne.symm hc0, hc]
    rw [← Nat.add_assoc, tokLoop, hstep]
    exact tokLoop_inSpace (c :: w) rest h0 hw n

/-! ### A field -/

/-- What is left to do behind a field: nothing where the arguments are full. -/
def continueFields (lib : EnvLib Env) (env : Env) (buflen argCount m : ℕ) (rest buffer : List UInt8)
    (args : List ℕ) (str : ℕ) (varname : List UInt8) : Except Fault Split :=
  if args.length = argCount then (put buflen buffer [0]).map (⟨·, args, none⟩)
  else tokLoop lib env buflen argCount m ⟨.nextField, rest, buffer, args, str, varname, none⟩

variable {l : List UInt8}

/-- A plain field ends at a separator or at the end of the line. -/
theorem tokLoop_plain {c : UInt8} (h0 : 0 ∉ c :: l) (hquote : c ≠ quote)
    (hdollar : c ≠ dollar) (m : ℕ) (w rest : List UInt8) (hsplit : c :: l = w ++ rest)
    (hw : ∀ c ∈ w, isSep c = false) (hrest : ∀ c ∈ rest.head?, isSep c = true) :
    tokLoop lib env buflen argCount (m + w.length + 2)
        ⟨.token, c :: l, buffer, args, str, varname, none⟩ =
      (emitField lib env buflen (args.length + 1 = argCount) buffer
        (.plain w (!rest.isEmpty))).bind fun b =>
          if rest = [] then (put buflen b [0]).map (⟨·, args ++ [buffer.length], none⟩)
          else continueFields lib env buflen argCount m rest b (args ++ [buffer.length])
            buffer.length varname := by
  obtain ⟨hc0, -⟩ := List.ne_and_not_mem_of_not_mem_cons h0
  have hstep : step lib env buflen argCount
      ⟨.token, c :: l, buffer, args, str, varname, none⟩ =
        .ok (⟨.inToken, c :: l, buffer, args, buffer.length, varname, none⟩, false) := by
    change stepOn lib env buflen argCount c _ = _
    simp [stepOn, Ne.symm hc0, hquote, hdollar]
  rw [show m + w.length + 2 = (m + 1 + w.length) + 1 by omega, tokLoop, hstep]
  change tokLoop lib env buflen argCount (m + 1 + w.length) _ = _
  rw [hsplit] at h0 ⊢
  rw [tokLoop_inToken w rest (fun h => h0 (List.mem_append_left _ h)) hw]
  rcases rest with _ | ⟨d, rest⟩
  · change _ = (put buflen buffer (w ++ [])).bind _
    rw [List.append_nil]
    rfl
  · have hd0 : d ≠ 0 := fun h => h0 (by rw [h]; simp)
    have hsep : isspace d = true ∨ d = semicolon := by
      simpa [isSep] using hrest d rfl
    change _ = (put buflen buffer (w ++ [0])).bind _
    rw [put_append]
    cases put buflen buffer w with
    | error e => rfl
    | ok b =>
      have hend : step lib env buflen argCount
          ⟨.inToken, d :: rest, b, args, buffer.length, varname, none⟩ =
            (put buflen b [0]).map fun b => (⟨.nextField, d :: rest, b,
              args ++ [buffer.length], buffer.length, varname, none⟩,
              decide ((args ++ [buffer.length]).length = argCount)) := by
        change stepOn lib env buflen argCount d _ = _
        simp only [stepOn, if_neg hd0, if_pos hsep]
      rw [ok_bind, tokLoop, hend, ok_bind]
      cases put buflen b [0] with
      | error e => rfl
      | ok b' =>
        change (if decide _ = true then _ else _) = if _ then _ else _
        simp only [decide_eq_true_eq]

/-- From an opening quote on the loop emits the field, and goes on behind the closing one. -/
theorem tokLoop_quoted (h0 : 0 ∉ l) (m : ℕ) (w rest : List UInt8)
    (hsplit : l = w ++ rest) (hw : quote ∉ w) (hrest : ∀ c ∈ rest.head?, c = quote) :
    tokLoop lib env buflen argCount (m + w.length + 3)
        ⟨.token, quote :: l, buffer, args, str, varname, none⟩ =
      (emitField lib env buflen (args.length + 1 = argCount) buffer
        (.quoted w (!rest.isEmpty))).bind fun b =>
          if rest = [] then (put buflen b [0]).map (⟨·, args ++ [buffer.length], none⟩)
          else continueFields lib env buflen argCount m rest.tail b (args ++ [buffer.length])
            buffer.length varname := by
  rw [show m + w.length + 3 = (m + 1 + w.length) + 2 by omega]
  change tokLoop lib env buflen argCount (m + 1 + w.length)
    ⟨.inQuotedToken, l, buffer, args, buffer.length, varname, none⟩ = _
  subst hsplit
  rw [tokLoop_inQuotedToken w rest (fun h => h0 (List.mem_append_left _ h)) hw]
  rcases rest with _ | ⟨q, rest⟩
  · change _ = (put buflen buffer (w ++ [])).bind _
    rw [List.append_nil]
    rfl
  · cases hrest q rfl
    change _ = (put buflen buffer (w ++ if _ then [0] else [0] ++ [quote])).bind _
    rw [put_append]
    cases put buflen buffer w with
    | error e => rfl
    | ok b =>
      have hend : step lib env buflen argCount
          ⟨.inQuotedToken, quote :: rest, b, args, buffer.length, varname, none⟩ =
            (put buflen b [0]).bind fun b' =>
              if (args ++ [buffer.length]).length = argCount then
                .ok (⟨.inQuotedToken, quote :: rest, b', args ++ [buffer.length],
                  buffer.length, varname, none⟩, true)
              else (put buflen b' [quote]).map fun b'' => (⟨.nextField, rest, b'',
                args ++ [buffer.length], buffer.length, varname, none⟩, false) := rfl
      have hlen : (args ++ [buffer.length]).length = args.length + 1 := by simp
      rw [ok_bind, ok_bind, tokLoop, hend]
      unfold continueFields
      simp only [hlen, decide_eq_true_eq]
      by_cases hfull : args.length + 1 = argCount
      · simp only [if_pos hfull]
        cases put buflen b [0] <;> rfl
      · simp only [if_neg hfull]
        rw [put_append]
        cases put buflen b [0] with
        | error e => rfl
        | ok b' =>
          simp only [ok_bind]
          cases put buflen b' [quote] <;> rfl

/-- A variable whose name fits in `varname` is replaced by its value. -/
theorem tokLoop_var (h0 : 0 ∉ l) (m : ℕ) (w rest : List UInt8)
    (hsplit : l = w ++ rest) (hw : ∀ c ∈ w, isSep c = false)
    (hrest : ∀ c ∈ rest.head?, isSep c = true) (hlen : w.length < varnameLen) :
    tokLoop lib env buflen argCount (m + w.length + 3)
        ⟨.token, dollar :: l, buffer, args, str, varname, none⟩ =
      (emitField lib env buflen (args.length + 1 = argCount) buffer (.var w)).bind fun b =>
        continueFields lib env buflen argCount m rest b (args ++ [buffer.length])
          buffer.length w := by
  rw [show m + w.length + 3 = (m + 1 + w.length) + 2 by omega]
  change tokLoop lib env buflen argCount (m + 1 + w.length)
    ⟨.inVar, l, buffer, args, buffer.length, [], none⟩ = _
  subst hsplit
  rw [tokLoop_inVar w rest (fun h => h0 (List.mem_append_left _ h)) hw [] (by simp; omega),
    List.nil_append]
  have hsep : rest.headD 0 = 0 ∨ isspace (rest.headD 0) = true ∨ rest.headD 0 = semicolon := by
    rcases rest with _ | ⟨d, rest⟩
    · exact .inl rfl
    · exact .inr (by simpa [isSep] using hrest d rfl)
  have hend : step lib env buflen argCount
      ⟨.inVar, rest, buffer, args, buffer.length, w, none⟩ =
        (putVar lib env buflen buffer w).map fun b => (⟨.nextField, rest, b,
          args ++ [buffer.length], buffer.length, w, none⟩,
          decide ((args ++ [buffer.length]).length = argCount)) := by
    change stepOn lib env buflen argCount (rest.headD 0) _ = _
    simp only [stepOn, if_pos hsep, if_pos hlen]
  rw [tokLoop, hend]
  change _ = (putVar lib env buflen buffer w).bind _
  cases putVar lib env buflen buffer w with
  | error e => rfl
  | ok b =>
    change (if decide _ = true then _ else _) = continueFields _ _ _ _ _ _ _ _ _ _
    simp only [decide_eq_true_eq]
    rfl

/-! ### A command -/

theorem emitFields_cons {f : Field} {fs : List Field} (h : args.length < argCount) :
    emitFields lib env buflen (argCount - args.length) (f :: fs) buffer args =
      (emitField lib env buflen (args.length + 1 = argCount) buffer f).bind fun b =>
        emitFields lib env buflen (argCount - (args ++ [buffer.length]).length) fs b
          (args ++ [buffer.length]) := by
  rw [List.length_append, List.length_singleton]
  obtain ⟨j, hj⟩ : ∃ j, argCount - args.length = j + 1 := ⟨argCount - args.length - 1, by omega⟩
  have hlast : decide (j = 0) = decide (args.length + 1 = argCount) := decide_eq_decide.2 (by omega)
  rw [hj, emitFields, hlast, show argCount - (args.length + 1) = j by omega]

theorem head_dropWhile {p : UInt8 → Bool} :
    ∀ c ∈ (l.dropWhile p).head?, p c = false := by
  intro c hc
  have := List.head?_dropWhile_not p l
  rw [Option.mem_def.1 hc] at this
  simpa using this

/-- What the scanner makes of the fields of a command. -/
def finishFields (lib : EnvLib Env) (env : Env) (buflen argCount : ℕ) (buffer : List UInt8)
    (args : List ℕ) (r : List Field × Option (List UInt8)) : Except Fault Split :=
  (emitFields lib env buflen (argCount - args.length) r.1 buffer args).bind fun e =>
    (put buflen e.1 [0]).map
      (⟨·, e.2, if argCount ≤ args.length + r.1.length then none else r.2⟩)

theorem finishFields_cons {f : Field} {r : List Field × Option (List UInt8)}
    (h : args.length < argCount) :
    finishFields lib env buflen argCount buffer args (f :: r.1, r.2) =
      (emitField lib env buflen (args.length + 1 = argCount) buffer f).bind fun b =>
        finishFields lib env buflen argCount b (args ++ [buffer.length]) r := by
  unfold finishFields
  rw [emitFields_cons h]
  cases emitField lib env buflen (args.length + 1 = argCount) buffer f with
  | error e => rfl
  | ok b =>
    rw [ok_bind, ok_bind]
    have hlen : (args ++ [buffer.length]).length + r.1.length =
        args.length + (f :: r.1).length := by
      rw [List.length_append, List.length_singleton, List.length_cons]
      omega
    rw [hlen]

theorem finishFields_nil : finishFields lib env buflen argCount buffer args ([], none) =
    (put buflen buffer [0]).map (⟨·, args, none⟩) := by
  unfold finishFields
  rcases argCount - args.length with _ | j <;>
    · rw [emitFields, ok_bind]
      simp

/-- The spaces in front of a field do not count. -/
theorem splitCommand_cons {c : UInt8} {line : List UInt8} (hd : line.dropWhile isspace = c :: l)
    (n : ℕ) : splitCommand (n + 1) line = splitCommand (n + 1) (c :: l) := by
  have hspace : isspace c = false := head_dropWhile c (by rw [hd]; rfl)
  rw [splitCommand, splitCommand, hd, List.dropWhile_cons_of_neg (by simp [hspace])]

/-- Behind a field, a line shorter than `len` is read as its fields. -/
def Continues (lib : EnvLib Env) (env : Env) (buflen argCount n len : ℕ) : Prop :=
  ∀ rest, 0 ∉ rest → rest.length < len → ∀ m, 8 * (rest.length + 1) ≤ m →
    ∀ (buffer : List UInt8) (args : List ℕ), args.length ≤ argCount → ∀ str varname,
      continueFields lib env buflen argCount m rest buffer args str varname =
        finishFields lib env buflen argCount buffer args (splitCommand n rest)

section Token

variable {n m : ℕ} {c : UInt8} (h0 : 0 ∉ c :: l) (hm : 8 * l.length + 13 ≤ m)
  (hargs : args.length < argCount)
  (hcont : Continues lib env buflen argCount n (l.length + 1))

include h0 hm hargs hcont

/-- A field in quotes, and the line behind it where the quote is closed. -/
theorem tokLoop_quotedField (hquote : c = quote) :
    tokLoop lib env buflen argCount m ⟨.token, c :: l, buffer, args, str, varname, none⟩ =
      finishFields lib env buflen argCount buffer args (splitCommand (n + 1) (c :: l)) := by
  subst hquote
  have hl0 := (List.ne_and_not_mem_of_not_mem_cons h0).2
  have hl := List.takeWhile_append_dropWhile (p := (· ≠ quote)) (l := l)
  have hll := congrArg List.length hl
  rw [List.length_append] at hll
  obtain ⟨m', rfl⟩ : ∃ m', m = m' + (l.takeWhile (· ≠ quote)).length + 3 :=
    ⟨m - 3 - (l.takeWhile (· ≠ quote)).length, by omega⟩
  rw [tokLoop_quoted hl0 m' _ _ hl.symm (fun h => by simpa using List.mem_takeWhile_imp h)
    (fun c hc => by simpa using head_dropWhile c hc), splitCommand,
    List.dropWhile_cons_of_neg (by decide)]
  simp only [if_neg (show quote ≠ semicolon by decide), if_true]
  cases hq : l.dropWhile (· ≠ quote) with
  | nil =>
    rw [hq, List.append_nil] at hl
    change _ = finishFields lib env buflen argCount buffer args
      (.quoted l false :: (([], none) : List Field × Option (List UInt8)).1,
        (([], none) : List Field × Option (List UInt8)).2)
    rw [finishFields_cons hargs, hl]
    simp only [finishFields_nil, if_true]
    rfl
  | cons q rest =>
    rw [hq, List.length_cons] at hll
    have hrest0 : 0 ∉ rest := fun h => hl0 (List.dropWhile_subset _ (by
      rw [hq]; exact List.mem_cons_of_mem _ h))
    rw [finishFields_cons hargs]
    simp only [reduceCtorEq, if_false, List.tail_cons]
    congr 1
    funext b
    exact hcont rest hrest0 (by omega) m' (by omega) b _ (by simp; omega) _ _

/-- A field that is the value of a variable. -/
theorem tokLoop_varField (hdollar : c = dollar) (hvar : l.length < varnameLen) :
    tokLoop lib env buflen argCount m ⟨.token, c :: l, buffer, args, str, varname, none⟩ =
      finishFields lib env buflen argCount buffer args (splitCommand (n + 1) (c :: l)) := by
  subst hdollar
  have hl0 := (List.ne_and_not_mem_of_not_mem_cons h0).2
  have hl := List.takeWhile_append_dropWhile (p := fun c => !isSep c) (l := l)
  have hll := congrArg List.length hl
  rw [List.length_append] at hll
  obtain ⟨m', rfl⟩ : ∃ m', m = m' + (l.takeWhile fun c => !isSep c).length + 3 :=
    ⟨m - 3 - (l.takeWhile fun c => !isSep c).length, by omega⟩
  rw [tokLoop_var hl0 m' _ _ hl.symm (fun c hc => by simpa using List.mem_takeWhile_imp hc)
    (fun c hc => by simpa using head_dropWhile c hc) (by omega), splitCommand,
    List.dropWhile_cons_of_neg (by decide)]
  simp only [if_neg (show dollar ≠ semicolon by decide), if_neg (show dollar ≠ quote by decide),
    if_true]
  rw [finishFields_cons hargs]
  congr 1
  funext b
  exact hcont _ (fun h => hl0 (List.dropWhile_subset _ h)) (by omega) m' (by omega) b _
    (by simp; omega) _ _

/-- A field without quotes. -/
theorem tokLoop_plainField (hspace : isspace c = false) (hsemi : c ≠ semicolon)
    (hquote : c ≠ quote) (hdollar : c ≠ dollar) :
    tokLoop lib env buflen argCount m ⟨.token, c :: l, buffer, args, str, varname, none⟩ =
      finishFields lib env buflen argCount buffer args (splitCommand (n + 1) (c :: l)) := by
  have hl := List.takeWhile_append_dropWhile (p := fun c => !isSep c) (l := c :: l)
  have hll := congrArg List.length hl
  rw [List.length_append, List.length_cons] at hll
  have hpos : 0 < ((c :: l).takeWhile fun c => !isSep c).length := by
    rw [List.takeWhile_cons_of_pos (by simp [isSep, hspace, hsemi])]
    exact Nat.succ_pos _
  obtain ⟨m', rfl⟩ : ∃ m', m = m' + ((c :: l).takeWhile fun c => !isSep c).length + 2 :=
    ⟨m - 2 - ((c :: l).takeWhile fun c => !isSep c).length, by omega⟩
  rw [tokLoop_plain h0 hquote hdollar m' _ _ hl.symm
    (fun c hc => by simpa using List.mem_takeWhile_imp hc)
    (fun c hc => by simpa using head_dropWhile c hc), splitCommand,
    List.dropWhile_cons_of_neg (p := isspace) (by simp [hspace])]
  simp only [if_neg hsemi, if_neg hquote, if_neg hdollar]
  rw [finishFields_cons hargs]
  congr 1
  funext b
  split_ifs with hempty
  · have hsplit0 : splitCommand n [] = ([], none) := by
      rcases n with _ | n <;> rfl
    rw [hempty, hsplit0, finishFields_nil]
  · exact hcont _ (fun h => h0 (List.dropWhile_subset _ h)) (by omega) m' (by omega) b _
      (by simp; omega) _ _

end Token

/-- **The scanner writes the fields of a command** and returns what is behind it, but nothing
where the arguments are full.  By induction on what is left of the line: the spaces are skipped,
and each kind of field is one lemma, given what becomes of the line behind it. -/
theorem tokLoop_fields (n : ℕ) (hst : st = .initial ∨ st = .nextField)
    (line : List UInt8) (h0 : 0 ∉ line) (hline : line.length < n) (hvar : line.length < varnameLen)
    (m : ℕ) (hm : 8 * (line.length + 1) ≤ m) (buffer : List UInt8) (args : List ℕ)
    (hargs : args.length < argCount) (str : ℕ) (varname : List UInt8) :
    tokLoop lib env buflen argCount m ⟨st, line, buffer, args, str, varname, none⟩ =
      finishFields lib env buflen argCount buffer args (splitCommand n line) := by
  induction n generalizing st line m buffer args str varname with
  | zero => omega
  | succ n ih =>
    have hcont : Continues lib env buflen argCount n line.length := by
      intro rest h0 hrest m hm buffer args hargs str varname
      unfold continueFields
      split_ifs with hfull
      · unfold finishFields
        rw [if_pos (by omega), show argCount - args.length = 0 by omega]
        rfl
      · exact ih (.inr rfl) rest h0 (by omega) (by omega) m hm buffer args (by omega) str varname
    have hsplit := List.takeWhile_append_dropWhile (p := isspace) (l := line)
    obtain ⟨st', k, hst', hk, hskip⟩ := tokLoop_skip lib env buflen argCount buffer args str
      varname none hst (line.takeWhile isspace) (line.dropWhile isspace)
      (fun h => h0 (List.takeWhile_subset _ h)) (fun c hc => List.mem_takeWhile_imp hc)
    rw [hsplit] at hskip
    have hlen : (line.takeWhile isspace).length + (line.dropWhile isspace).length =
        line.length := by rw [← List.length_append, hsplit]
    cases hd : line.dropWhile isspace with
    | nil =>
      rw [hd] at hskip
      obtain ⟨m', rfl⟩ : ∃ m', m = m' + 1 + k := ⟨m - 1 - k, by omega⟩
      rw [hskip, tokLoop_end hst', splitCommand, hd, finishFields_nil]
    | cons c l =>
      have hspace : isspace c = false := head_dropWhile c (by rw [hd]; rfl)
      have h0' : 0 ∉ c :: l := fun h => h0 (List.dropWhile_subset _ (by rw [hd]; exact h))
      have hc0 := (List.ne_and_not_mem_of_not_mem_cons h0').1
      rw [hd] at hskip
      rw [hd, List.length_cons] at hlen
      by_cases hsemi : c = semicolon
      · subst hsemi
        obtain ⟨m', rfl⟩ : ∃ m', m = m' + 2 + k := ⟨m - 2 - k, by omega⟩
        rw [hskip, tokLoop_sep hst', splitCommand, hd]
        simp only [if_true]
        unfold finishFields
        rw [show argCount - args.length = argCount - args.length - 1 + 1 by omega, emitFields,
          ok_bind, List.length_nil, if_neg (by omega)]
      obtain ⟨m', rfl⟩ : ∃ m', m = m' + 1 + k := ⟨m - 1 - k, by omega⟩
      have hcont : Continues lib env buflen argCount n (l.length + 1) := fun rest h0 hrest =>
        hcont rest h0 (by omega)
      rw [hskip, tokLoop_token hst' l (Ne.symm hc0) hspace hsemi, splitCommand_cons hd]
      by_cases hquote : c = quote
      · exact tokLoop_quotedField h0' (by omega) hargs hcont hquote
      by_cases hdollar : c = dollar
      · exact tokLoop_varField h0' (by omega) hargs hcont hdollar (by omega)
      · exact tokLoop_plainField h0' (by omega) hargs hcont hspace hsemi hquote hdollar

end Scan

end Console
end LittleKernel
