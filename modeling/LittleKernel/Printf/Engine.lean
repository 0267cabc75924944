/-
# The format engine

`lib/libc/printf.c`: `longlong_to_string`, `longlong_to_hexstring`, `_printf_engine`,
`_vsnprintf_output` and `vsnprintf`.

What the engine passes to its output function does not depend on what that returns until it
fails, so the engine is the list of its outputs (`outputs`) and a loop over them
(`printfEngine`).  The time stamps that some platforms put before the lines of a console are
left out.
-/

import LittleKernel.Lib.Bytes
import LittleKernel.Lib.Numeral
import LittleKernel.Lib.Word

namespace LittleKernel
namespace Printf

open Bytes Word

/-- A character of the source. -/
def ch (c : Char) : UInt8 := UInt8.ofNat c.toNat

/-! ### Numbers -/

/-- The bits of `flags`. -/
structure Flags where
  long : Bool := false
  longlong : Bool := false
  half : Bool := false
  halfhalf : Bool := false
  sizet : Bool := false
  intmax : Bool := false
  ptrdiff : Bool := false
  alt : Bool := false
  caps : Bool := false
  showsign : Bool := false
  signed : Bool := false
  leftformat : Bool := false
  leadzero : Bool := false
  blankpos : Bool := false
  deriving DecidableEq

/-- `sizeof(num_buffer)`. -/
def numBufferLen : ℕ := 32

/-- The loop of `longlong_to_string`, with so much of the buffer left before what is written. -/
def decimalLoop : ℕ → ℕ → List UInt8 → List UInt8
  | 0, _, s => s
  | pos + 1, n, s =>
    if 10 ≤ n then decimalLoop pos (n / 10) (UInt8.ofNat (n % 10 + 48) :: s)
    else UInt8.ofNat (n + 48) :: s

/-- `longlong_to_string`: the digits, and the sign character if there is one. -/
def longlongToString (n : ℕ) (flag : Flags) : List UInt8 × Option UInt8 :=
  let negative : Bool := flag.signed && decide (2 ^ 63 ≤ n)
  (decimalLoop (numBufferLen - 1) (if negative then u64 (2 ^ 64 - n) else n) [],
    if negative then some (ch '-')
    else if flag.showsign then some (ch '+')
    else if flag.blankpos then some (ch ' ')
    else none)

/-- `hextable` and `hextable_caps`. -/
def hextable (caps : Bool) (digit : ℕ) : UInt8 :=
  ((if caps then "0123456789ABCDEF" else "0123456789abcdef").toList.map ch).getD digit 0

/-- The loop of `longlong_to_hexstring`. -/
def hexLoop (caps : Bool) : ℕ → ℕ → List UInt8 → List UInt8
  | 0, _, s => s
  | pos + 1, u, s =>
    if u / 16 ≠ 0 then hexLoop caps pos (u / 16) (hextable caps (u % 16) :: s)
    else hextable caps (u % 16) :: s

/-- `longlong_to_hexstring`. -/
def longlongToHexstring (u : ℕ) (flag : Flags) : List UInt8 :=
  hexLoop flag.caps (numBufferLen - 1) u []

/-! ### Arguments -/

/-- An argument, and what it is when it is taken for another kind. -/
inductive Arg
  | int (v : ℤ)
  | str (s : Option CString)

def Arg.toInt : Arg → ℤ
  | .int v => v
  | .str _ => 0

/-- The text of a string argument. -/
def Arg.toText : Arg → List UInt8
  | .str (some s) => s.bytes
  | _ => "<null>".toList.map ch

/-- The target: whether `long`, `size_t` and `ptrdiff_t` have 64 bits, and the text of floating
point numbers. -/
structure Target where
  lp64 : Bool
  double : UInt8 → Flags → Arg → List UInt8

def Target.longBits (t : Target) : ℕ := if t.lp64 then 64 else 32

/-- The width of the type that an integer is read as. -/
def Target.bits (t : Target) (flags : Flags) : ℕ :=
  if flags.longlong then 64
  else if flags.long then t.longBits
  else if flags.halfhalf then 8
  else if flags.half then 16
  else if flags.sizet then t.longBits
  else if flags.intmax then 64
  else if flags.ptrdiff then t.longBits
  else 32

/-- `n` of a signed conversion, as the `unsigned long long` that it is kept in. -/
def Target.readSigned (t : Target) (flags : Flags) (a : Arg) : ℕ :=
  (a.toInt.bmod (2 ^ t.bits flags) % 2 ^ 64).toNat

/-- `n` of an unsigned conversion. -/
def Target.readUnsigned (t : Target) (flags : Flags) (a : Arg) : ℕ :=
  (a.toInt % 2 ^ t.bits flags).toNat

/-! ### The engine -/

/-- What the engine does with the world: a call of its output function, a number stored by `n`. -/
inductive Event
  | output (s : List UInt8)
  | store (flags : Flags)

/-- `OUTPUT_CHAR` so many times. -/
def outputChars (n : ℕ) (c : UInt8) : List Event := List.replicate n (.output [c])

/-- `_output_string`. -/
def outputString (flags : Flags) (formatNum : ℕ) (signchar : Option UInt8) (s : List UInt8) :
    List Event :=
  if flags.leftformat then
    .output s :: outputChars (formatNum - u32 s.length) (ch ' ')
  else
    let num := if signchar.isSome ∧ 0 < formatNum then formatNum - 1 else formatNum
    let sign : List Event := signchar.toList.map fun c => .output [c]
    (if flags.leadzero then sign else []) ++
      outputChars (num - s.length) (if flags.leadzero then ch '0' else ch ' ') ++
        (if flags.leadzero then [] else sign) ++ [.output s]

/-- What comes after a character of a format: more of it, or the field and the arguments that are
left. -/
inductive Next
  | more (flags : Flags) (formatNum : ℕ)
  | field (events : List Event) (args : List Arg)

/-- The conversions `d` and `i`. -/
def decimalField (t : Target) (flags : Flags) (formatNum : ℕ) (a : Arg) : List Event :=
  let flags := { flags with signed := true }
  let s := longlongToString (t.readSigned flags a) flags
  outputString flags formatNum s.2 s.1

/-- The conversion `u`. -/
def unsignedField (t : Target) (flags : Flags) (formatNum : ℕ) (a : Arg) : List Event :=
  let s := longlongToString (t.readUnsigned flags a) flags
  outputString flags formatNum s.2 s.1

/-- The conversions `x`, `X` and `p`. -/
def hexField (t : Target) (flags : Flags) (formatNum : ℕ) (a : Arg) : List Event :=
  (if flags.alt then [.output [ch '0'], .output [if flags.caps then ch 'X' else ch 'x']]
    else []) ++
      outputString flags formatNum none (longlongToHexstring (t.readUnsigned flags a) flags)

/-- The switch on a character of a format. -/
def nextFormat (t : Target) (c : UInt8) (flags : Flags) (formatNum : ℕ) (args : List Arg) : Next :=
  let a := args.headD (.int 0)
  let rest := args.tail
  if ch '0' ≤ c ∧ c ≤ ch '9' then
    .more (if c = ch '0' ∧ formatNum = 0 then { flags with leadzero := true } else flags)
      (u32 (formatNum * 10 + (c.toNat - 48)))
  else if c = ch '.' then .more flags formatNum
  else if c = ch '%' then .field [.output [ch '%']] args
  else if c = ch 'c' then .field [.output [UInt8.ofNat (a.toInt % 256).toNat]] rest
  else if c = ch 's' then
    .field (outputString { flags with leadzero := false } formatNum none a.toText) rest
  else if c = ch '-' then .more { flags with leftformat := true } formatNum
  else if c = ch '+' then .more { flags with showsign := true } formatNum
  else if c = ch ' ' then .more { flags with blankpos := true } formatNum
  else if c = ch '#' then .more { flags with alt := true } formatNum
  else if c = ch 'l' then
    .more { flags with longlong := flags.longlong || flags.long, long := true } formatNum
  else if c = ch 'h' then
    .more { flags with halfhalf := flags.halfhalf || flags.half, half := true } formatNum
  else if c = ch 'z' then .more { flags with sizet := true } formatNum
  else if c = ch 'j' then .more { flags with intmax := true } formatNum
  else if c = ch 't' then .more { flags with ptrdiff := true } formatNum
  else if c = ch 'i' ∨ c = ch 'd' then .field (decimalField t flags formatNum a) rest
  else if c = ch 'u' then .field (unsignedField t flags formatNum a) rest
  else if c = ch 'p' then
    .field (hexField t { flags with long := true, alt := true } formatNum a) rest
  else if c = ch 'X' then .field (hexField t { flags with caps := true } formatNum a) rest
  else if c = ch 'x' then .field (hexField t flags formatNum a) rest
  else if c = ch 'n' then .field [.store flags] rest
  else if c = ch 'F' ∨ c = ch 'f' ∨ c = ch 'A' ∨ c = ch 'a' then
    .field (outputString flags formatNum none (t.double c flags a)) rest
  else .field [.output [ch '%'], .output [c]] args

/-- Where the engine stands in the format: in text, with what it has seen of it, or in a format. -/
inductive Mode
  | text (s : List UInt8)
  | format (flags : Flags) (formatNum : ℕ)

/-- **What the engine does** with a format and arguments. -/
def outputs (t : Target) : Mode → List UInt8 → List Arg → List Event
  | .text s, [], _ => [.output s]
  | .text s, c :: fmt, args =>
    if c = ch '%' then .output s :: outputs t (.format {} 0) fmt args
    else outputs t (.text (s ++ [c])) fmt args
  | .format _ _, [], _ => []
  | .format flags formatNum, c :: fmt, args =>
    match nextFormat t c flags formatNum args with
    | .more flags formatNum => outputs t (.format flags formatNum) fmt args
    | .field events args => events ++ outputs t (.text []) fmt args

/-- The characters that the engine outputs. -/
def emitted : List Event → List UInt8
  | [] => []
  | .output s :: l => s ++ emitted l
  | .store _ :: l => emitted l

/-! ### The output function of `vsnprintf` -/

/-- The buffer of `vsnprintf`: what is in memory from its start on, how much of it may be
written, and `struct _output_args`. -/
structure Buffer where
  mem : ℕ → UInt8
  len : ℕ
  pos : ℕ

/-- A store, which fails outside the buffer. -/
def Buffer.put (b : Buffer) (i : ℤ) (c : UInt8) : Option Buffer :=
  if 0 ≤ i ∧ i < b.len then some { b with mem := Function.update b.mem i.toNat c } else none

/-- `_vsnprintf_output`: a character is stored where there is room. -/
def vsnprintfOutput : List UInt8 → Buffer → Option Buffer
  | [], b => some b
  | c :: s, b =>
    (if b.pos < b.len then (b.put b.pos c).map fun b => { b with pos := b.pos + 1 }
      else some b).bind (vsnprintfOutput s)

/-- Conversion to `int`. -/
def toInt (x : ℕ) : ℤ := (x : ℤ).bmod (2 ^ 32)

/-- The engine's loop, with `err` and `chars_written`: the value returned, and the buffer.  The
number that `n` stores is not looked at. -/
def printfEngine : List Event → ℕ → Buffer → Option (ℤ × Buffer)
  | [], charsWritten, b => some (toInt charsWritten, b)
  | .store _ :: l, charsWritten, b => printfEngine l charsWritten b
  | .output s :: l, charsWritten, b =>
    (vsnprintfOutput s b).bind fun b =>
      -- `out` returns the length as an `int`
      if toInt s.length < 0 then some (toInt s.length, b)
      else printfEngine l (u64 (charsWritten + u32 s.length)) b

/-- `vsnprintf`, which returns an `int` and indexes with it. -/
def vsnprintf (t : Target) (fmt : CString) (args : List Arg) (len : ℕ) (mem : ℕ → UInt8) :
    Option (ℤ × Buffer) :=
  (printfEngine (outputs t (.text []) fmt.bytes args) 0 ⟨mem, len, 0⟩).bind fun r =>
    (r.2.put (if len ≤ r.2.pos then (sub64 len 1 : ℤ) else r.1) 0).map (r.1, ·)

end Printf
end LittleKernel
