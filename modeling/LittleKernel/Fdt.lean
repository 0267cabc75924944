/-
# Setting a property of the device tree

`platform/exynos9630/fdt.c`: `set_fdt_val`; `lib/gpt/guid.c`: `simple_strtoul`.

A value that starts with `<` is a list of cells.  Every round of the parser reads one number,
stores it as a big-endian cell and skips the blanks behind it, until it stands on a `>`.  The
number may be empty, and nothing counts the cells.

A pointer into a string is what is left of the string's bytes, the NUL included.
-/

import LittleKernel.Lib.Bytes
import LittleKernel.Lib.Word

namespace LittleKernel
namespace Fdt

open Bytes Word

/-! ### Numbers -/

/-- What the parser can do wrong: read behind the string, store behind its buffer. -/
inductive Fault
  | read
  | store
  deriving DecidableEq

/-- `isdigit`. -/
def isdigit (c : UInt8) : Bool := 48 ≤ c && c ≤ 57

/-- `islower`. -/
def islower (c : UInt8) : Bool := 97 ≤ c && c ≤ 122

/-- `toupper`. -/
def toupper (c : UInt8) : UInt8 := if islower c then c - 32 else c

/-- `isxdigit`. -/
def isxdigit (c : UInt8) : Bool := isdigit c || (97 ≤ c && c ≤ 102) || (65 ≤ c && c ≤ 70)

/-- The `value` of a character in `simple_strtoul`. -/
def digitValue (c : UInt8) : ℕ :=
  if isdigit c then c.toNat - 48 else (if islower c then toupper c else c).toNat - 65 + 10

/-- A digit of a number in some base. -/
def DigitOf (base : ℕ) (c : UInt8) : Prop := isxdigit c ∧ digitValue c < base

instance (base : ℕ) (c : UInt8) : Decidable (DigitOf base c) := by
  unfold DigitOf
  infer_instance

/-- The loop of `simple_strtoul`, whose `result` has 64 bits. -/
def digitLoop (base : ℕ) : ℕ → List UInt8 → Except Fault (ℕ × List UInt8)
  | _, [] => .error .read
  | result, c :: cp =>
    if DigitOf base c then digitLoop base (u64 (result * base + digitValue c)) cp
    else .ok (result, c :: cp)

/-- `simple_strtoul`: the number, and where it ends. -/
def simpleStrtoul (cp : List UInt8) (base : ℕ) : Except Fault (ℕ × List UInt8) :=
  match cp with
  | [] => .error .read
  | c :: cp =>
    if c = 48 then
      match cp with
      | [] => .error .read
      | x :: hex =>
        if x = 120 then
          match hex with
          | [] => .error .read
          | d :: _ =>
            if isxdigit d then digitLoop 16 0 hex
            else digitLoop (if base = 0 then 8 else base) 0 (x :: hex)
        else digitLoop (if base = 0 then 8 else base) 0 (x :: hex)
    else digitLoop (if base = 0 then 10 else base) 0 (c :: cp)

/-! ### The parser -/

/-- `BUFFER_SIZE`, and the cells it has room for. -/
def bufferSize : ℕ := 4096
def maxCells : ℕ := bufferSize / 4

/-- `cpu_to_be32` of a number as it lies in memory. -/
def cell (tmp : ℕ) : List UInt8 := (le 4 tmp).reverse

/-- The blanks behind a number. -/
def skipBlanks : List UInt8 → Except Fault (List UInt8)
  | [] => .error .read
  | c :: np => if c = 32 then skipBlanks np else .ok (c :: np)

/-- The loop of `set_fdt_val` with room for so many more cells.  A loop that does not end
stores behind the buffer before anything else. -/
def parseCells : ℕ → List UInt8 → List UInt8 → Except Fault (List UInt8)
  | _, _, [] => .error .read
  | room, parsed, c :: np =>
    if c = 62 then .ok parsed
    else
      match simpleStrtoul (c :: np) 0 with
      | .error e => .error e
      | .ok (tmp, np) =>
        match room with
        | 0 => .error .store
        | room + 1 =>
          match skipBlanks np with
          | .error e => .error e
          | .ok np => parseCells room (parsed ++ cell tmp) np

/-- The bytes of `parsed_value` that count. -/
def parsedValue (value : CString) : Except Fault (List UInt8) :=
  match value.bytes with
  | [] => .ok [0]
  | c :: np =>
    if c = 60 then parseCells maxCells [] (np ++ [0])
    else if value.bytes.length + 1 ≤ bufferSize then .ok (value.bytes ++ [0])
    else .error .store

/-- The functions of `libfdt` on the tree in memory. -/
structure Libfdt where
  checkHeader : ℤ
  pathOffset : CString → ℤ
  setprop : ℤ → CString → List UInt8 → ℤ

/-- What `set_fdt_val` returns, and the bytes it passed to `fdt_setprop`. -/
structure Outcome where
  ret : ℤ
  passed : Option (List UInt8)

/-- The end of `set_fdt_val`. -/
def handOver (fdt : Libfdt) (path property : CString) (parsed : List UInt8) : Outcome :=
  if fdt.checkHeader ≠ 0 then ⟨fdt.checkHeader, none⟩
  else if fdt.pathOffset path < 0 then ⟨1, none⟩
  else ⟨if fdt.setprop (fdt.pathOffset path) property parsed < 0 then 1 else 0, some parsed⟩

/-- `set_fdt_val`. -/
def setFdtVal (fdt : Libfdt) (path property value : CString) : Except Fault Outcome :=
  (parsedValue value).map (handOver fdt path property)

/-! ### Lists of numbers -/

/-- The number that digits write. -/
def valueOf (base : ℕ) (ds : List UInt8) : ℕ := ds.foldl (fun v d => v * base + digitValue d) 0

/-- **A number as C writes it**: decimal, octal behind a `0`, hexadecimal behind a `0x`. -/
inductive Literal : List UInt8 → ℕ → Prop
  | decimal {ds : List UInt8} : ds ≠ [] → (∀ d ∈ ds, DigitOf 10 d) → ds.head? ≠ some 48 →
      Literal ds (valueOf 10 ds)
  | octal {ds : List UInt8} : (∀ d ∈ ds, DigitOf 8 d) → Literal (48 :: ds) (valueOf 8 ds)
  | hexadecimal {ds : List UInt8} : ds ≠ [] → (∀ d ∈ ds, DigitOf 16 d) →
      Literal (48 :: 120 :: ds) (valueOf 16 ds)

/-- **A list of cells**, from behind its `<` to its `>`: numbers with blanks between them. -/
inductive CellList : List UInt8 → List ℕ → Prop
  | close : CellList [62] []
  | number {text blanks rest : List UInt8} {n : ℕ} {ns : List ℕ} : Literal text n →
      (∀ b ∈ blanks, b = 32) → (blanks = [] → ns = []) → CellList rest ns →
      CellList (text ++ (blanks ++ rest)) (n :: ns)

/-! ### What the parser gets through -/

/-- A `0x` with a digit behind it. -/
def HexPrefix (l : List UInt8) : Prop := ∃ d rest, l = 120 :: d :: rest ∧ isxdigit d

/-- **The longest number, if any,** that some bytes start with, its value, and the rest. -/
inductive Longest : List UInt8 → ℕ → List UInt8 → Prop
  | decimal {ds rest : List UInt8} {c : UInt8} : (∀ d ∈ ds, DigitOf 10 d) →
      ds.head? ≠ some 48 → ¬ DigitOf 10 c → Longest ds (valueOf 10 ds) (c :: rest)
  | octal {ds rest : List UInt8} {c : UInt8} : (∀ d ∈ ds, DigitOf 8 d) → ¬ DigitOf 8 c →
      ¬ HexPrefix (ds ++ c :: rest) → Longest (48 :: ds) (valueOf 8 ds) (c :: rest)
  | hexadecimal {ds rest : List UInt8} {c : UInt8} : ds ≠ [] → (∀ d ∈ ds, DigitOf 16 d) →
      ¬ DigitOf 16 c → Longest (48 :: 120 :: ds) (valueOf 16 ds) (c :: rest)

/-- **Some bytes are that many groups with a `>` behind them**, a group being the longest
number there is, the blanks behind it, or both. -/
inductive Groups : ℕ → List UInt8 → Prop
  | close {rest : List UInt8} : Groups 0 (62 :: rest)
  | group {text blanks rest : List UInt8} {value n : ℕ} :
      (text ++ (blanks ++ rest)).head? ≠ some 62 → Longest text value (blanks ++ rest) →
      (∀ b ∈ blanks, b = 32) → rest.head? ≠ some 32 → Groups n rest →
      Groups (n + 1) (text ++ (blanks ++ rest))

/-- The list of a value has at most as many groups as the buffer has cells. -/
def Fits (value : CString) : Prop :=
  value.bytes.head? = some 60 → ∃ n ≤ maxCells, Groups n (value.bytes.tail ++ [0])

/-- **What setting a property promises about lists of cells.**  The parser ends without
leaving the string or the buffer, and the numbers of a list get to `fdt_setprop`. -/
structure SetsCells (fdt : Libfdt) (path property value : CString) : Prop where
  safe : value.bytes.head? = some 60 → ∃ out, setFdtVal fdt path property value = .ok out
  exact : ∀ text ns, value.bytes = 60 :: text → CellList text ns → (∀ n ∈ ns, n < 2 ^ 32) →
    setFdtVal fdt path property value = .ok (handOver fdt path property (ns.flatMap cell))

/-! ### Reading a number -/

theorem not_digitOf_zero (base : ℕ) : ¬ DigitOf base 0 := fun h => absurd h.1 (by decide)

/-- Every character that `isxdigit` accepts is a digit in base 16. -/
theorem digitOf_sixteen {d : UInt8} (hd : isxdigit d) : DigitOf 16 d := by
  refine ⟨hd, ?_⟩
  unfold isxdigit isdigit at hd
  unfold digitValue toupper isdigit islower
  simp only [Bool.or_eq_true, Bool.and_eq_true, decide_eq_true_eq, UInt8.le_iff_toNat_le] at hd ⊢
  split_ifs
  all_goals
    simp only [UInt8.toNat_sub, UInt8.reduceToNat] at *
    omega

/-- The loop goes over the digits and stops at the first other character. -/
theorem digitLoop_append {base : ℕ} {ds : List UInt8} (hds : ∀ d ∈ ds, DigitOf base d)
    {c : UInt8} (hc : ¬ DigitOf base c) (rest : List UInt8) (v : ℕ) :
    digitLoop base (u64 v) (ds ++ c :: rest) =
      .ok (u64 (ds.foldl (fun v d => v * base + digitValue d) v), c :: rest) := by
  induction ds generalizing v with
  | nil => rw [List.nil_append, digitLoop, if_neg hc, List.foldl_nil]
  | cons d ds ih =>
    have hv : u64 (u64 v * base + digitValue d) = u64 (v * base + digitValue d) := by
      unfold u64
      rw [Nat.add_mod, Nat.mod_mul_mod, ← Nat.add_mod]
    rw [List.cons_append, digitLoop, if_pos (hds d List.mem_cons_self), hv,
      ih (fun e he => hds e (List.mem_cons_of_mem _ he)), List.foldl_cons]

variable {l : List UInt8}

/-- There is a first other character. -/
theorem digits_split (base : ℕ) (h0 : 0 ∈ l) :
    ∃ ds c rest, l = ds ++ c :: rest ∧ (∀ d ∈ ds, DigitOf base d) ∧ ¬ DigitOf base c := by
  induction l with
  | nil => cases h0
  | cons d l ih =>
    by_cases hd : DigitOf base d
    · have hl : 0 ∈ l := by
        rcases List.mem_cons.1 h0 with rfl | h
        · exact absurd hd (not_digitOf_zero base)
        · exact h
      obtain ⟨ds, c, rest, rfl, hds, hc⟩ := ih hl
      refine ⟨d :: ds, c, rest, rfl, fun e he => ?_, hc⟩
      rcases List.mem_cons.1 he with rfl | h
      · exact hd
      · exact hds e h
    · exact ⟨[], d, l, rfl, by simp, hd⟩

theorem simpleStrtoul_decimal {c : UInt8} (hc : c ≠ 48) (cp : List UInt8) :
    simpleStrtoul (c :: cp) 0 = digitLoop 10 (u64 0) (c :: cp) := by
  simp only [simpleStrtoul, if_neg hc, if_true]
  rfl

theorem simpleStrtoul_octal (h0 : 0 ∈ l) (hl : ¬ HexPrefix l) :
    simpleStrtoul (48 :: l) 0 = digitLoop 8 (u64 0) l := by
  obtain ⟨x, hex, rfl⟩ := List.exists_cons_of_ne_nil (List.ne_nil_of_mem h0)
  by_cases hx : x = 120
  · subst hx
    have hhex : 0 ∈ hex := (List.mem_cons.1 h0).resolve_left (by decide)
    obtain ⟨d, rest, rfl⟩ := List.exists_cons_of_ne_nil (List.ne_nil_of_mem hhex)
    have hd : ¬ isxdigit d := fun h => hl ⟨d, rest, rfl, h⟩
    simp only [simpleStrtoul, if_true, if_neg hd]
    rfl
  · simp only [simpleStrtoul, if_true, if_neg hx]
    rfl

theorem simpleStrtoul_hexadecimal {d : UInt8} (hd : isxdigit d) (rest : List UInt8) :
    simpleStrtoul (48 :: 120 :: d :: rest) 0 = digitLoop 16 (u64 0) (d :: rest) := by
  simp only [simpleStrtoul, if_true, if_pos hd]
  rfl

variable {value : ℕ}

/-- **`simple_strtoul` reads the longest number there is.** -/
theorem Longest.simpleStrtoul_eq {text rest : List UInt8}
    (h : Longest text value rest) (h0 : 0 ∈ rest) :
    simpleStrtoul (text ++ rest) 0 = .ok (u64 value, rest) := by
  cases h with
  | @decimal _ rest c hds hhead hc =>
    rw [valueOf, ← digitLoop_append hds hc rest 0]
    cases text with
    | nil =>
      have hc48 : c ≠ 48 := by
        rintro rfl
        exact hc (by decide)
      exact simpleStrtoul_decimal hc48 rest
    | cons d ds => exact simpleStrtoul_decimal (fun h => hhead (by rw [h]; rfl)) _
  | @octal ds rest c hds hc hhex =>
    rw [List.cons_append, simpleStrtoul_octal (List.mem_append_right _ h0) hhex,
      digitLoop_append hds hc]
    rfl
  | @hexadecimal ds rest c hne hds hc =>
    obtain ⟨d, ds, rfl⟩ := List.exists_cons_of_ne_nil hne
    have hd : isxdigit d := (hds d List.mem_cons_self).1
    rw [List.cons_append, List.cons_append, List.cons_append, simpleStrtoul_hexadecimal hd,
      ← List.cons_append, digitLoop_append hds hc]
    rfl

/-- A string always starts with a longest number. -/
theorem exists_longest (h0 : 0 ∈ l) :
    ∃ text value rest, l = text ++ rest ∧ Longest text value rest ∧ 0 ∈ rest := by
  have hrest : ∀ {base : ℕ} {ds rest : List UInt8}, (∀ d ∈ ds, DigitOf base d) →
      0 ∈ ds ++ rest → 0 ∈ rest := fun hds h =>
    (List.mem_append.1 h).resolve_left fun h => not_digitOf_zero _ (hds 0 h)
  obtain ⟨c, cp, rfl⟩ := List.exists_cons_of_ne_nil (List.ne_nil_of_mem h0)
  by_cases hc : c = 48
  · subst hc
    have hcp : 0 ∈ cp := (List.mem_cons.1 h0).resolve_left (by decide)
    by_cases hhex : HexPrefix cp
    · obtain ⟨d, rest, rfl, hd⟩ := hhex
      have hd0 : 0 ∈ d :: rest := (List.mem_cons.1 hcp).resolve_left (by decide)
      obtain ⟨ds, c, rest', hl, hds, hc⟩ := digits_split 16 hd0
      have hne : ds ≠ [] := by
        rintro rfl
        obtain ⟨rfl, -⟩ := List.cons.inj hl
        exact hc (digitOf_sixteen hd)
      exact ⟨48 :: 120 :: ds, _, c :: rest', by rw [hl]; rfl, .hexadecimal hne hds hc,
        hrest hds (hl ▸ hd0)⟩
    · obtain ⟨ds, c, rest, rfl, hds, hc⟩ := digits_split 8 hcp
      exact ⟨48 :: ds, _, c :: rest, rfl, .octal hds hc hhex, hrest hds hcp⟩
  · obtain ⟨ds, e, rest, hl, hds, he⟩ := digits_split 10 h0
    refine ⟨ds, _, e :: rest, hl, .decimal hds ?_ he, hrest hds (hl ▸ h0)⟩
    cases ds with
    | nil => simp
    | cons d ds =>
      obtain ⟨rfl, -⟩ := List.cons.inj hl
      simpa using hc

theorem Longest.zero_notMem {text rest : List UInt8} (h : Longest text value rest) :
    0 ∉ text := by
  have hdigits : ∀ {base : ℕ} {ds : List UInt8}, (∀ d ∈ ds, DigitOf base d) → 0 ∉ ds :=
    fun hds h => not_digitOf_zero _ (hds 0 h)
  cases h with
  | decimal hds => exact hdigits hds
  | octal hds => simpa using hdigits hds
  | hexadecimal _ hds => simpa using hdigits hds

/-! ### The rounds of the parser -/

theorem skipBlanks_append {blanks rest : List UInt8} (hb : ∀ b ∈ blanks, b = 32)
    (hrest : rest.head? ≠ some 32) (hne : rest ≠ []) :
    skipBlanks (blanks ++ rest) = .ok rest := by
  induction blanks with
  | nil =>
    obtain ⟨c, rest, rfl⟩ := List.exists_cons_of_ne_nil hne
    rw [List.nil_append, skipBlanks, if_neg fun h => hrest (by rw [h]; rfl)]
  | cons b blanks ih =>
    rw [List.cons_append, skipBlanks, if_pos (hb b List.mem_cons_self),
      ih fun e he => hb e (List.mem_cons_of_mem _ he)]

theorem blanks_split (h0 : 0 ∈ l) :
    ∃ blanks rest, l = blanks ++ rest ∧ (∀ b ∈ blanks, b = 32) ∧ rest.head? ≠ some 32 ∧
      0 ∈ rest := by
  induction l with
  | nil => cases h0
  | cons c l ih =>
    by_cases hc : c = 32
    · subst hc
      obtain ⟨blanks, rest, rfl, hb, hrest, h0⟩ :=
        ih ((List.mem_cons.1 h0).resolve_left (by decide))
      refine ⟨32 :: blanks, rest, rfl, fun b h => ?_, hrest, h0⟩
      exact (List.mem_cons.1 h).elim id (hb b)
    · exact ⟨[], c :: l, rfl, by simp, by simpa using hc, h0⟩

theorem Longest.zero_mem {text blanks rest : List UInt8}
    (hl : Longest text value (blanks ++ rest)) (hb : ∀ b ∈ blanks, b = 32)
    (h0 : 0 ∈ text ++ (blanks ++ rest)) : 0 ∈ rest := by
  have hblanks : 0 ∉ blanks := fun h => absurd (hb 0 h) (by decide)
  rcases List.mem_append.1 h0 with h | h
  · exact absurd h hl.zero_notMem
  · exact (List.mem_append.1 h).resolve_left hblanks

/-- **One round.**  Where the parser does not stand on a `>` it takes the longest number and
the blanks behind it, and stores a cell if there is room. -/
theorem parseCells_round {text blanks rest : List UInt8}
    (hhead : (text ++ (blanks ++ rest)).head? ≠ some 62)
    (hl : Longest text value (blanks ++ rest)) (hb : ∀ b ∈ blanks, b = 32)
    (hrest : rest.head? ≠ some 32) (h0 : 0 ∈ rest) (room : ℕ) (parsed : List UInt8) :
    parseCells room parsed (text ++ (blanks ++ rest)) =
      match room with
      | 0 => .error .store
      | room + 1 => parseCells room (parsed ++ cell (u64 value)) rest := by
  have hread := hl.simpleStrtoul_eq (List.mem_append_right _ h0)
  have hskip := skipBlanks_append hb hrest (List.ne_nil_of_mem h0)
  have hne : text ++ (blanks ++ rest) ≠ [] :=
    List.ne_nil_of_mem (List.mem_append_right _ (List.mem_append_right _ h0))
  obtain ⟨c, np, hc⟩ := List.exists_cons_of_ne_nil hne
  rw [hc] at hhead hread ⊢
  have hc62 : c ≠ 62 := by simpa using hhead
  cases room with
  | zero => rw [parseCells, if_neg hc62, hread]
  | succ room => simp only [parseCells, if_neg hc62, hread, hskip]

/-- A number stays the same where only the low 32 bits of it are stored. -/
theorem cell_u64 (n : ℕ) (h : n < 2 ^ 32) : cell (u64 n) = cell n := by
  rw [u64_of_lt (by omega)]

/-- Groups for which there is room are parsed. -/
theorem Groups.parseCells_ok {n : ℕ} {np : List UInt8} (hg : Groups n np) :
    ∀ {room : ℕ} (parsed : List UInt8), n ≤ room → 0 ∈ np →
      ∃ out, parseCells room parsed np = .ok out := by
  induction hg with
  | close => exact fun parsed _ _ => ⟨parsed, by rw [parseCells, if_pos rfl]⟩
  | @group text blanks rest value n hhead hl hb hrest _ ih =>
    intro room parsed hn h0
    have h0' : 0 ∈ rest := hl.zero_mem hb h0
    obtain ⟨room, rfl⟩ := Nat.exists_eq_succ_of_ne_zero (by omega : room ≠ 0)
    rw [parseCells_round hhead hl hb hrest h0']
    exact ih _ (by omega) h0'

/-- What is parsed are groups for which there is room. -/
theorem groups_of_parseCells {room : ℕ} {parsed np out : List UInt8} (h0 : 0 ∈ np)
    (h : parseCells room parsed np = .ok out) : ∃ n ≤ room, Groups n np := by
  induction room generalizing parsed np with
  | zero =>
    by_cases hhead : np.head? = some 62
    · obtain ⟨rest, rfl⟩ := List.head?_eq_some_iff.1 hhead
      exact ⟨0, le_rfl, .close⟩
    · obtain ⟨text, value, l, rfl, hl, hl0⟩ := exists_longest h0
      obtain ⟨blanks, rest, rfl, hb, hrest, h0'⟩ := blanks_split hl0
      rw [parseCells_round hhead hl hb hrest h0'] at h
      cases h
  | succ room ih =>
    by_cases hhead : np.head? = some 62
    · obtain ⟨rest, rfl⟩ := List.head?_eq_some_iff.1 hhead
      exact ⟨0, by omega, .close⟩
    · obtain ⟨text, value, l, rfl, hl, hl0⟩ := exists_longest h0
      obtain ⟨blanks, rest, rfl, hb, hrest, h0'⟩ := blanks_split hl0
      rw [parseCells_round hhead hl hb hrest h0'] at h
      obtain ⟨n, hn, hg⟩ := ih h0' h
      exact ⟨n + 1, by omega, .group hhead hl hb hrest hg⟩

/-- **The parser gets to the `>` exactly over few enough groups.** -/
theorem parseCells_ok_iff {room : ℕ} {parsed np : List UInt8} (h0 : 0 ∈ np) :
    (∃ out, parseCells room parsed np = .ok out) ↔ ∃ n ≤ room, Groups n np :=
  ⟨fun ⟨_, h⟩ => groups_of_parseCells h0 h, fun ⟨_, hn, hg⟩ => hg.parseCells_ok parsed hn h0⟩

/-! ### Lists of numbers are parsed as such -/

variable {text : List UInt8}

theorem Literal.head {n : ℕ} (h : Literal text n) :
    ∃ d ds, text = d :: ds ∧ isxdigit d := by
  cases h with
  | decimal hne hds =>
    obtain ⟨d, ds, rfl⟩ := List.exists_cons_of_ne_nil hne
    exact ⟨d, ds, rfl, (hds d List.mem_cons_self).1⟩
  | octal => exact ⟨48, _, rfl, by decide⟩
  | hexadecimal => exact ⟨48, _, rfl, by decide⟩

/-- A number ends at a blank and at a `>`. -/
theorem Literal.longest {n : ℕ} (h : Literal text n) {c : UInt8}
    (hc : c = 32 ∨ c = 62) (rest : List UInt8) : Longest text n (c :: rest) := by
  have hx : ¬ isxdigit c := by
    rcases hc with rfl | rfl
    · decide
    · decide
  have hdigit : ∀ base, ¬ DigitOf base c := fun _ h => hx h.1
  cases h with
  | decimal _ hds hhead => exact .decimal hds hhead (hdigit 10)
  | @octal ds hds =>
    refine .octal hds (hdigit 8) fun ⟨d, l, hl, hd⟩ => ?_
    cases ds with
    | nil =>
      obtain ⟨rfl, -⟩ := List.cons.inj hl
      exact absurd hc (by decide)
    | cons e ds =>
      obtain ⟨rfl, -⟩ := List.cons.inj hl
      exact absurd (hds 120 List.mem_cons_self).1 (by decide)
  | hexadecimal hne hds => exact .hexadecimal hne hds (hdigit 16)

theorem CellList.head {ns : List ℕ} (h : CellList text ns) :
    ∃ c l, text = c :: l ∧ c ≠ 32 ∧ (ns = [] → c = 62) := by
  cases h with
  | close => exact ⟨62, [], rfl, by decide, fun _ => rfl⟩
  | number hn =>
    obtain ⟨d, ds, rfl, hd⟩ := hn.head
    refine ⟨d, _, rfl, ?_, fun h => nomatch h⟩
    rintro rfl
    exact absurd hd (by decide)

/-- **Where a list of numbers is parsed, its cells are what is stored.** -/
theorem CellList.parseCells_eq {ns : List ℕ} (h : CellList text ns) :
    ∀ {room : ℕ} {parsed out : List UInt8}, (∀ n ∈ ns, n < 2 ^ 32) →
      parseCells room parsed (text ++ [0]) = .ok out → out = parsed ++ ns.flatMap cell := by
  induction h with
  | close =>
    intro room parsed out _ h
    rw [List.cons_append, parseCells, if_pos rfl] at h
    obtain rfl := Except.ok.inj h
    rw [List.flatMap_nil, List.append_nil]
  | @number text blanks rest n ns hn hb hsep hrest ih =>
    intro room parsed out hlt h
    obtain ⟨c, l, rfl, hc, hlast⟩ := hrest.head
    have hl : Longest text n (blanks ++ (c :: l ++ [0])) := by
      cases blanks with
      | nil => exact hn.longest (.inr (hlast (hsep rfl))) _
      | cons b blanks => exact hn.longest (.inl (hb b List.mem_cons_self)) _
    have hhead : (text ++ (blanks ++ (c :: l ++ [0]))).head? ≠ some 62 := by
      obtain ⟨d, ds, rfl, hd⟩ := hn.head
      intro h
      cases h
      exact absurd hd (by decide)
    rw [List.append_assoc, List.append_assoc, parseCells_round hhead hl hb
      (by simpa using hc) (by simp)] at h
    cases room with
    | zero => cases h
    | succ room =>
      rw [ih (fun m hm => hlt m (List.mem_cons_of_mem _ hm)) h,
        cell_u64 n (hlt n List.mem_cons_self), List.flatMap_cons, List.append_assoc]

/-! ### Setting a property -/

theorem setFdtVal_cells (fdt : Libfdt) (path property value : CString) {np : List UInt8}
    (h : value.bytes = 60 :: np) : setFdtVal fdt path property value =
      (parseCells maxCells [] (np ++ [0])).map (handOver fdt path property) := by
  rw [setFdtVal, parsedValue, h]
  rfl

/-- A parser that stands on the NUL of a string fills the buffer and goes on. -/
theorem parseCells_nul (room : ℕ) (parsed : List UInt8) :
    parseCells room parsed [0] = .error .store := by
  induction room generalizing parsed with
  | zero => rfl
  | succ room ih => exact ih (parsed ++ cell 0)

/-- **Setting a property keeps its promise about lists of cells exactly where the list runs to
its `>` in groups of numbers and blanks, at most 1024 of them.**  Nothing else ends the
parser: a list without its `>`, a letter that is no digit and a sign all make it store cell
after cell behind the buffer, and so does a list that is too long. -/
theorem setFdtVal_setsCells_iff (fdt : Libfdt) (path property value : CString) :
    SetsCells fdt path property value ↔ Fits value := by
  constructor
  · intro h h60
    obtain ⟨np, hnp⟩ := List.head?_eq_some_iff.1 h60
    obtain ⟨out, hout⟩ := h.safe h60
    rw [setFdtVal_cells fdt path property value hnp] at hout
    rw [hnp, List.tail_cons]
    refine (parseCells_ok_iff (by simp)).1
      (?_ : ∃ out, parseCells maxCells [] (np ++ [0]) = .ok out)
    cases hp : parseCells maxCells [] (np ++ [0]) with
    | error e =>
      rw [hp] at hout
      cases hout
    | ok parsed => exact ⟨parsed, rfl⟩
  · intro h
    have hok : ∀ np, value.bytes = 60 :: np →
        ∃ parsed, parseCells maxCells [] (np ++ [0]) = .ok parsed := by
      intro np hnp
      have hf := h (by rw [hnp]; rfl)
      rw [hnp, List.tail_cons] at hf
      exact (parseCells_ok_iff (by simp)).2 hf
    constructor
    · intro h60
      obtain ⟨np, hnp⟩ := List.head?_eq_some_iff.1 h60
      obtain ⟨parsed, hp⟩ := hok np hnp
      rw [setFdtVal_cells fdt path property value hnp, hp]
      exact ⟨_, rfl⟩
    · intro np ns hnp hlist hlt
      obtain ⟨parsed, hp⟩ := hok np hnp
      rw [setFdtVal_cells fdt path property value hnp, hp, hlist.parseCells_eq hlt hp]
      rfl

/-- The value `<1`, whose list has no end. -/
theorem setFdtVal_unterminated : ¬ ∀ (fdt : Libfdt) (path property value : CString),
    SetsCells fdt path property value := by
  intro h
  let value : CString := ⟨[60, 49], by decide⟩
  obtain ⟨out, hout⟩ := (h ⟨0, fun _ => 0, fun _ _ _ => 0⟩ value value value).safe rfl
  rw [setFdtVal_cells _ _ _ value rfl] at hout
  have hl : Longest [49] (valueOf 10 [49]) ([] ++ [0]) :=
    .decimal (by simp only [List.forall_mem_singleton]; decide) (by decide) (by decide)
  have hround : parseCells (1023 + 1) [] ([49] ++ [0]) = .error .store :=
    (parseCells_round (by decide) hl (by simp) (by decide) (by simp) (1023 + 1) []).trans
      (parseCells_nul 1023 _)
  rw [show maxCells = 1023 + 1 from rfl, hround] at hout
  cases hout

end Fdt
end LittleKernel
