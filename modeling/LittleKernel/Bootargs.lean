/-
# The boot argument list

`lib/bootargs/bootargs.c`: a list of tags in a buffer, each a word for its type, a word for the
length of its data, and the data; a tag of type 0 ends it.

| type | data |
| --- | --- |
| `args` | none; the first tag |
| `cmdl` | the command line, padded with NULs to whole words |
| `bimg` | `offset` (8), `len` (8), and the device name, padded, where there is one |

`bootargs_start` clears the buffer, so that whatever stands behind the last tag ends the list.
The functions that add a tag look for that end and write the tag there.  They do not compare
its length with what is left of the buffer, and `bootargs_start` asks for the room of one tag
where it needs that of two; `find_tag` stops at the first tag of a type.
`bootargs_runs_sound_iff` says which sequences of calls are served as they should be.

Sizes are those of a 64-bit build.
-/

import LittleKernel.Lib.Fields
import LittleKernel.Lib.Machine
import LittleKernel.Lib.Word

namespace LittleKernel
namespace Bootargs

open Memory Word Bytes Machine

/-- `LK_BOOT_ARG_MAGIC` and the types of the tags. -/
def lkBootArgMagic : ℕ := 0x6c6b6274
def typeInitial : ℕ := 0x61726773
def typeCommandLine : ℕ := 0x636d646c
def typeBootimage : ℕ := 0x62696d67
def typeEnd : ℕ := 0

/-- `ROUNDUP(n, 4)`. -/
def roundup4 (n : ℕ) : ℕ := (n + 3) / 4 * 4

/-- The loop of `find_end` from `ptr` on. -/
def findEndFrom (m : ℕ → UInt8) (buf bufLen : ℕ) : ℕ → ℕ → Option ℕ
  | 0, _ => none
  | fuel + 1, ptr =>
    if load32 m ptr = typeEnd then some ptr
    else
      let ptr := ptr + (8 + load32 m (ptr + 4))
      if ptr - buf > bufLen then none else findEndFrom m buf bufLen fuel ptr

/-- `find_end`; no list within `buf_len` bytes has more tags (`findEndFrom_fuel`). -/
def findEnd (m : ℕ → UInt8) (buf bufLen : ℕ) : Option ℕ :=
  findEndFrom m buf bufLen (bufLen / 8 + 1) buf

/-- `memset(p, 0, n)`. -/
def clear (m : ℕ → UInt8) (p n : ℕ) : ℕ → UInt8 := store m p (List.replicate n 0)

/-- `strcpy`. -/
def strcpy (m : ℕ → UInt8) (p : ℕ) (s : CString) : ℕ → UInt8 := store m p (s.bytes ++ [0])

/-- `bootargs_start`: whether it returns `NO_ERROR`, and the memory. -/
def bootargsStart (m : ℕ → UInt8) (buf bufLen : ℕ) : Bool × (ℕ → UInt8) :=
  if bufLen < 8 then (false, m)
  else (true, store32 (store32 (clear m buf bufLen) buf typeInitial) (buf + 4) 0)

/-- `bootargs_add_command_line`. -/
def bootargsAddCommandLine (m : ℕ → UInt8) (buf bufLen : ℕ) (str : CString) :
    Bool × (ℕ → UInt8) :=
  match findEnd m buf bufLen with
  | none => (false, m)
  | some arg =>
    let m := store32 m arg typeCommandLine
    let len := u32 (roundup4 (str.bytes.length + 1))
    let m := store32 m (arg + 4) len
    (true, strcpy (clear m (arg + 8) len) (arg + 8) str)

/-- `bootargs_add_bootimage_pointer`. -/
def bootargsAddBootimagePointer (m : ℕ → UInt8) (buf bufLen : ℕ) (device : Option CString)
    (offset len : UInt64) : Bool × (ℕ → UInt8) :=
  match findEnd m buf bufLen with
  | none => (false, m)
  | some arg =>
    let stringLen := (device.map fun s => roundup4 (s.bytes.length + 1)).getD 0
    let m := store32 m arg typeBootimage
    let m := store32 m (arg + 4) (u32 (stringLen + 16))
    let m := store64 m (arg + 8) offset.toNat
    let m := store64 m (arg + 16) len.toNat
    (true, match device with
      | none => m
      | some s => strcpy (clear m (arg + 24) stringLen) (arg + 24) s)

/-- `bootargs_generate_lk_arg_values`. -/
def bootargsGenerateLkArgValues (buf : ℕ) : ℕ × ℕ × ℕ × ℕ :=
  (lkBootArgMagic, buf, 0, (2 ^ 64 - 1) ^^^ lkBootArgMagic ^^^ buf ^^^ 0)

/-- `bootargs_init_hook`: `boot_args`, where they are valid.  The buffer is at the address it
was given as. -/
def bootargsInitHook (m : ℕ → UInt8) (args : ℕ × ℕ × ℕ × ℕ) : Option ℕ :=
  if args.1 ≠ lkBootArgMagic then none
  else if args.2.2.2 ≠ (2 ^ 64 - 1) ^^^ args.1 ^^^ args.2.1 ^^^ args.2.2.1 then none
  else if args.2.1 = 0 then none
  else if load32 m args.2.1 ≠ typeInitial then none
  else some args.2.1

/-- The loop of `find_tag` from `arg` on: `none` where the walk has not come to its end. -/
def findTagFrom (m : ℕ → UInt8) (tag : ℕ) : ℕ → ℕ → Option (Option ℕ)
  | 0, _ => none
  | fuel + 1, arg =>
    if load32 m arg = typeEnd then some none
    else if load32 m arg = tag then some (some arg)
    else findTagFrom m tag fuel (arg + (8 + load32 m (arg + 4)))

/-- `find_tag`. -/
def findTag (m : ℕ → UInt8) (bootArgs : Option ℕ) (tag fuel : ℕ) : Option (Option ℕ) :=
  match bootArgs with
  | none => some none
  | some arg => findTagFrom m tag fuel arg

/-- `bootargs_get_command_line`: the string, where there is one. -/
def bootargsGetCommandLine (m : ℕ → UInt8) (bootArgs : Option ℕ) (fuel : ℕ) :
    Option (Option ℕ) :=
  (findTag m bootArgs typeCommandLine fuel).map fun arg => arg.map (· + 8)

/-- `bootargs_get_bootimage_pointer`: the offset, the length and the device name, where there
are some. -/
def bootargsGetBootimagePointer (m : ℕ → UInt8) (bootArgs : Option ℕ) (fuel : ℕ) :
    Option (Option (ℕ × ℕ × Option ℕ)) :=
  (findTag m bootArgs typeBootimage fuel).map fun arg => arg.map fun arg =>
    (load64 m (arg + 8), load64 m (arg + 16),
      if load32 m (arg + 4) ≠ 16 then some (arg + 24) else none)

/-! ### Tags as bytes -/

inductive Tag where
  | initial
  | commandLine (str : CString)
  | bootimage (device : Option CString) (offset len : UInt64)
  deriving DecidableEq

def Tag.type : Tag → ℕ
  | .initial => typeInitial
  | .commandLine _ => typeCommandLine
  | .bootimage _ _ _ => typeBootimage

/-- A string in whole words. -/
def words (s : CString) : List UInt8 := s.padded (roundup4 (s.bytes.length + 1))

def Tag.data : Tag → List UInt8
  | .initial => []
  | .commandLine str => words str
  | .bootimage device offset len =>
    le 8 offset.toNat ++ (le 8 len.toNat ++ (device.map words).getD [])

def Tag.encode (t : Tag) : List UInt8 := le 4 t.type ++ (le 4 t.data.length ++ t.data)

theorem le_roundup4 (n : ℕ) : n ≤ roundup4 n := by
  unfold roundup4
  omega

theorem length_words (s : CString) : (words s).length = roundup4 (s.bytes.length + 1) :=
  CString.length_padded (by have := le_roundup4 (s.bytes.length + 1); omega)

theorem Tag.length_encode (t : Tag) : t.encode.length = 8 + t.data.length := by
  simp only [encode, List.length_append, length_le]
  omega

theorem Tag.type_bounds (t : Tag) : t.type ≠ typeEnd ∧ t.type < 2 ^ 32 := by
  cases t with
  | initial => exact ⟨by decide, by decide⟩
  | commandLine str => exact (by decide : typeCommandLine ≠ typeEnd ∧ typeCommandLine < 2 ^ 32)
  | bootimage device offset len =>
    exact (by decide : typeBootimage ≠ typeEnd ∧ typeBootimage < 2 ^ 32)

/-- The bytes of the tags of a list. -/
def flat (tags : List Tag) : List UInt8 := tags.flatMap Tag.encode

theorem flat_concat (tags : List Tag) (t : Tag) : flat (tags ++ [t]) = flat tags ++ t.encode := by
  simp [flat]

/-! ### The writes of an added tag -/

theorem strcpy_clear (m : ℕ → UInt8) (p : ℕ) (s : CString) :
    strcpy (clear m p (roundup4 (s.bytes.length + 1))) p s = store m p (words s) := by
  have h := le_roundup4 (s.bytes.length + 1)
  rw [strcpy, clear, store_store, List.drop_replicate]
  simp only [words, CString.padded, List.length_append, List.length_singleton, List.append_assoc]
  rw [show roundup4 (s.bytes.length + 1) - s.bytes.length =
    roundup4 (s.bytes.length + 1) - (s.bytes.length + 1) + 1 by omega, List.replicate_succ]
  rfl

theorem store32_store32 (m : ℕ → UInt8) (p a b : ℕ) :
    store32 (store32 m p a) (p + 4) b = store m p (le 4 a ++ le 4 b) := by
  have := store_append m p (le 4 a) (le 4 b)
  rwa [length_le] at this

/-- A tag is written as its bytes. -/
theorem bootargsAddCommandLine_eq {m : ℕ → UInt8} {buf bufLen arg : ℕ} {str : CString}
    (hend : findEnd m buf bufLen = some arg) (hlt : (Tag.commandLine str).data.length < 2 ^ 32) :
    bootargsAddCommandLine m buf bufLen str = (true, store m arg (Tag.commandLine str).encode) := by
  have hlen := length_words str
  have hu : u32 (roundup4 (str.bytes.length + 1)) = roundup4 (str.bytes.length + 1) :=
    u32_of_lt (by rw [← hlen]; exact hlt)
  simp only [bootargsAddCommandLine, hend, hu]
  rw [store32_store32, strcpy_clear, Prod.mk.injEq]
  refine ⟨rfl, ?_⟩
  have := store_append m arg (le 4 typeCommandLine ++ le 4 (words str).length) (words str)
  rw [List.length_append, length_le, length_le, hlen, List.append_assoc] at this
  rw [this, Tag.encode, Tag.type, Tag.data, hlen]

theorem bootargsAddBootimagePointer_eq {m : ℕ → UInt8} {buf bufLen arg : ℕ}
    {device : Option CString} {offset len : UInt64} (hend : findEnd m buf bufLen = some arg)
    (hlt : (Tag.bootimage device offset len).data.length < 2 ^ 32) :
    bootargsAddBootimagePointer m buf bufLen device offset len =
      (true, store m arg (Tag.bootimage device offset len).encode) := by
  have hwords : ((device.map words).getD []).length =
      (device.map fun s => roundup4 (s.bytes.length + 1)).getD 0 := by
    cases device with
    | none => rfl
    | some s => exact length_words s
  have hlen : (Tag.bootimage device offset len).data.length =
      (device.map fun s => roundup4 (s.bytes.length + 1)).getD 0 + 16 := by
    simp only [Tag.data, List.length_append, length_le, hwords]
    omega
  have hu : u32 ((device.map fun s => roundup4 (s.bytes.length + 1)).getD 0 + 16) =
      (Tag.bootimage device offset len).data.length := by
    rw [← hlen, u32_of_lt hlt]
  simp only [bootargsAddBootimagePointer, hend, hu]
  rw [store32_store32, Prod.mk.injEq]
  refine ⟨rfl, ?_⟩
  generalize hn : (Tag.bootimage device offset len).data.length = n
  have h₁ := store_append m arg (le 4 typeBootimage ++ le 4 n) (le 8 offset.toNat)
  have h₂ := store_append m arg (le 4 typeBootimage ++ le 4 n ++ le 8 offset.toNat)
    (le 8 len.toNat)
  simp only [List.length_append, length_le] at h₁ h₂
  rw [store64, store64, h₁, h₂]
  have hcode : (Tag.bootimage device offset len).encode = le 4 typeBootimage ++ le 4 n ++
      le 8 offset.toNat ++ le 8 len.toNat ++ (device.map words).getD [] := by
    rw [Tag.encode, hn, Tag.type, Tag.data]
    simp only [List.append_assoc]
  rw [hcode]
  cases device with
  | none => simp only [Option.map_none, Option.getD_none, List.append_nil]
  | some s =>
    have h₃ := store_append m arg (le 4 typeBootimage ++ le 4 n ++ le 8 offset.toNat ++
      le 8 len.toNat) (words s)
    simp only [List.length_append, length_le] at h₃
    exact (strcpy_clear _ _ s).trans h₃

/-! ### Walking over the tags -/

/-- The bytes of a list of tags lie at `p`, and every length fits its word. -/
structure At (m : ℕ → UInt8) (p : ℕ) (tags : List Tag) : Prop where
  bytes : window m p (flat tags).length = flat tags
  lens : ∀ t ∈ tags, t.data.length < 2 ^ 32

variable {t : Tag} {tags : List Tag} {m : ℕ → UInt8} {p : ℕ}

/-- The first tag of a list, and what follows it. -/
theorem At.cons (h : At m p (t :: tags)) : load32 m p = t.type ∧ load32 m (p + 4) = t.data.length ∧
      window m (p + 8) t.data.length = t.data ∧ At m (p + (8 + t.data.length)) tags := by
  have hbytes := h.bytes
  rw [show flat (t :: tags) = t.encode ++ flat tags from rfl] at hbytes
  obtain ⟨h₁, h₂⟩ := window_eq_append.1 hbytes
  rw [Tag.length_encode] at h₂
  obtain ⟨htype, h₃⟩ := window_eq_append.1 h₁
  rw [length_le] at htype h₃
  obtain ⟨hlen, hdata⟩ := window_eq_append.1 h₃
  rw [length_le] at hlen hdata
  exact ⟨load32_of_window htype t.type_bounds.2,
    load32_of_window hlen (h.lens t List.mem_cons_self), hdata, h₂,
    fun x hx => h.lens x (List.mem_cons_of_mem _ hx)⟩

theorem length_flat_cons (t : Tag) (tags : List Tag) :
    (flat (t :: tags)).length = 8 + t.data.length + (flat tags).length := by
  rw [show flat (t :: tags) = t.encode ++ flat tags from rfl, List.length_append,
    Tag.length_encode]

theorem le_length_flat (tags : List Tag) : 8 * tags.length ≤ (flat tags).length := by
  induction tags with
  | nil => exact Nat.le_refl _
  | cons t tags ih =>
    rw [length_flat_cons, List.length_cons]
    omega

/-- **The walk of `find_end`** stops behind the last tag. -/
theorem findEndFrom_of_at {buf bufLen fuel p : ℕ}
    (h : At m p tags) (hend : load32 m (p + (flat tags).length) = typeEnd)
    (hroom : p + (flat tags).length ≤ buf + bufLen) (hfuel : tags.length < fuel) :
    findEndFrom m buf bufLen fuel p = some (p + (flat tags).length) := by
  induction tags generalizing p fuel with
  | nil =>
    obtain ⟨fuel, rfl⟩ : ∃ f, fuel = f + 1 := ⟨fuel - 1, by simp at hfuel; omega⟩
    exact if_pos hend
  | cons t tags ih =>
    obtain ⟨fuel, rfl⟩ : ∃ f, fuel = f + 1 := ⟨fuel - 1, by simp at hfuel; omega⟩
    obtain ⟨htype, hlen, -, hrest⟩ := h.cons
    rw [length_flat_cons] at hend hroom ⊢
    rw [List.length_cons] at hfuel
    rw [findEndFrom, htype, if_neg t.type_bounds.1, hlen, if_neg (by omega),
      ih hrest (by rw [← hend]; congr 1; omega) (by omega) (by omega)]
    congr 1
    omega

/-- **The walk of `find_tag`** stops at the first tag of the type, -/
theorem findTagFrom_of_at {tag fuel p : ℕ} {before after : List Tag}
    (h : At m p (before ++ t :: after)) (ht : t.type = tag) (hb : ∀ x ∈ before, x.type ≠ tag)
    (hfuel : before.length < fuel) :
    findTagFrom m tag fuel p = some (some (p + (flat before).length)) := by
  induction before generalizing p fuel with
  | nil =>
    obtain ⟨fuel, rfl⟩ : ∃ f, fuel = f + 1 := ⟨fuel - 1, by simp at hfuel; omega⟩
    obtain ⟨htype, -⟩ := h.cons
    rw [findTagFrom, htype, if_neg t.type_bounds.1, if_pos ht]
    rfl
  | cons x before ih =>
    obtain ⟨fuel, rfl⟩ : ∃ f, fuel = f + 1 := ⟨fuel - 1, by simp at hfuel; omega⟩
    obtain ⟨htype, hlen, -, hrest⟩ := h.cons
    rw [List.length_cons] at hfuel
    rw [findTagFrom, htype, if_neg x.type_bounds.1, if_neg (hb x List.mem_cons_self), hlen,
      ih hrest (fun y hy => hb y (List.mem_cons_of_mem _ hy)) (by omega), length_flat_cons]
    congr 2
    omega

/-- or at the end of the list. -/
theorem findTagFrom_eq_none {tag fuel p : ℕ}
    (h : At m p tags) (hend : load32 m (p + (flat tags).length) = typeEnd)
    (htags : ∀ x ∈ tags, x.type ≠ tag) (hfuel : tags.length < fuel) :
    findTagFrom m tag fuel p = some none := by
  induction tags generalizing p fuel with
  | nil =>
    obtain ⟨fuel, rfl⟩ : ∃ f, fuel = f + 1 := ⟨fuel - 1, by simp at hfuel; omega⟩
    exact if_pos hend
  | cons x tags ih =>
    obtain ⟨fuel, rfl⟩ : ∃ f, fuel = f + 1 := ⟨fuel - 1, by simp at hfuel; omega⟩
    obtain ⟨htype, hlen, -, hrest⟩ := h.cons
    rw [length_flat_cons] at hend
    rw [List.length_cons] at hfuel
    rw [findTagFrom, htype, if_neg x.type_bounds.1, if_neg (htags x List.mem_cons_self), hlen,
      ih hrest (by rw [← hend]; congr 1; omega) (fun y hy => htags y (List.mem_cons_of_mem _ hy))
        (by omega)]

/-- Fuel for every tag that fits the buffer: more changes nothing. -/
theorem findEndFrom_fuel {buf bufLen fuel ptr : ℕ} (hptr : buf ≤ ptr)
    (hfuel : bufLen < 8 * fuel + (ptr - buf)) (n : ℕ) :
    findEndFrom m buf bufLen (fuel + 1 + n) ptr = findEndFrom m buf bufLen (fuel + 1) ptr := by
  induction fuel generalizing ptr with
  | zero =>
    rw [Nat.add_right_comm, findEndFrom, findEndFrom]
    have hout : ptr + (8 + load32 m (ptr + 4)) - buf > bufLen := by omega
    dsimp only
    rw [if_pos hout, if_pos hout]
  | succ fuel ih =>
    rw [Nat.add_right_comm _ _ n, findEndFrom, findEndFrom]
    have hnext := @ih (ptr + (8 + load32 m (ptr + 4))) (by omega) (by omega)
    rw [Nat.add_right_comm fuel 1 n] at hnext
    dsimp only
    rw [Nat.add_right_comm fuel 1 n, hnext]

/-! ### A list in a buffer -/

/-- The buffer holds the tags and zeros behind them, the end tag among these. -/
structure Holds (m : ℕ → UInt8) (buf bufLen : ℕ) (tags : List Tag) : Prop where
  room : (flat tags).length + 8 ≤ bufLen
  tags_at : At m buf tags
  zero : ∀ i, buf + (flat tags).length ≤ i → i < buf + bufLen → m i = 0

variable {buf bufLen : ℕ}

section

variable (h : Holds m buf bufLen tags)
include h

theorem Holds.end_eq :
    load32 m (buf + (flat tags).length) = typeEnd := by
  have hroom := h.room
  have hzero : window m (buf + (flat tags).length) 4 = List.replicate 4 0 := by
    refine List.eq_replicate_iff.2 ⟨length_window _ _ _, fun b hb => ?_⟩
    obtain ⟨i, hi, rfl⟩ := List.mem_map.1 hb
    have := List.mem_range.1 hi
    exact h.zero _ (by omega) (by omega)
  exact load32_of_window (v := 0) hzero (by norm_num)

theorem Holds.fuel : tags.length < bufLen / 8 + 1 := by
  have := h.room
  have := le_length_flat tags
  omega

theorem Holds.findEnd :
    findEnd m buf bufLen = some (buf + (flat tags).length) :=
  findEndFrom_of_at h.tags_at h.end_eq (by have := h.room; omega) h.fuel

/-- **A tag that fits is added**, and what lies outside of the buffer is not touched. -/
theorem Holds.add
    (hroom : (flat (tags ++ [t])).length + 8 ≤ bufLen) (hlt : t.data.length < 2 ^ 32) :
    Holds (store m (buf + (flat tags).length) t.encode) buf bufLen (tags ++ [t]) ∧
      ∀ i, i < buf ∨ buf + bufLen ≤ i → store m (buf + (flat tags).length) t.encode i = m i := by
  have hlen : (flat (tags ++ [t])).length = (flat tags).length + t.encode.length := by
    rw [flat_concat, List.length_append]
  have hout : ∀ i, i < buf + (flat tags).length ∨ buf + (flat (tags ++ [t])).length ≤ i →
      store m (buf + (flat tags).length) t.encode i = m i := fun i hi =>
    store_of_not_mem (by omega)
  refine ⟨⟨hroom, ⟨?_, ?_⟩, fun i hi hi' => ?_⟩, fun i hi => hout i (by omega)⟩
  · rw [flat_concat]
    refine window_eq_append.2 ⟨?_, ?_⟩
    · rw [← h.tags_at.bytes, length_window]
      exact window_congr fun i hi => hout _ (by omega)
    · simpa using window_store m (buf + (flat tags).length) [] t.encode []
  · intro x hx
    rcases List.mem_append.1 hx with hx | hx
    · exact h.tags_at.lens x hx
    · obtain rfl := List.mem_singleton.1 hx
      exact hlt
  · rw [hout i (.inr hi)]
    exact h.zero i (by omega) hi'

end

/-- `bootargs_start` in a buffer with room for two tags. -/
theorem holds_start (m : ℕ → UInt8) {buf bufLen : ℕ} (h : 16 ≤ bufLen) :
    Holds (bootargsStart m buf bufLen).2 buf bufLen [.initial] ∧
      ∀ i, i < buf ∨ buf + bufLen ≤ i → (bootargsStart m buf bufLen).2 i = m i := by
  have hflat : (flat [.initial]).length = 8 := by rfl
  have hmem : (bootargsStart m buf bufLen).2 =
      store (clear m buf bufLen) buf (le 4 typeInitial ++ le 4 0) := by
    rw [bootargsStart, if_neg (by omega)]
    exact store32_store32 _ _ _ _
  have hclear : ∀ i, buf ≤ i → i < buf + bufLen → clear m buf bufLen i = 0 := fun i hi hi' => by
    rw [clear, store, if_pos hi, List.getElem?_replicate, if_pos (by omega)]
    rfl
  rw [hmem]
  refine ⟨⟨by omega, ⟨?_, ?_⟩, fun i hi hi' => ?_⟩, fun i hi => ?_⟩
  · exact (by simpa using window_store (clear m buf bufLen) buf [] (le 4 typeInitial ++ le 4 0) [] :
      window (store (clear m buf bufLen) buf (le 4 typeInitial ++ le 4 0)) buf 8 =
        le 4 typeInitial ++ le 4 0)
  · intro x hx
    obtain rfl := List.mem_singleton.1 hx
    decide
  · rw [store_of_not_mem (by right; simpa [hflat] using hi)]
    exact hclear i (by omega) hi'
  · rw [store_of_not_mem (by simp; omega), clear, store_of_not_mem (by simpa using hi)]

/-! ### What is read back -/

/-- The string `s` lies at `p`. -/
def StrAt (m : ℕ → UInt8) (p : ℕ) (s : CString) : Prop :=
  window m p (s.bytes.length + 1) = s.bytes ++ [0]

theorem StrAt.ofBytes {p n : ℕ} {s : CString} (h : StrAt m p s) (hn : s.bytes.length < n) :
    CString.ofBytes (window m p n) = s := by
  obtain ⟨c, rfl⟩ := Nat.exists_eq_add_of_le (show s.bytes.length + 1 ≤ n from hn)
  rw [window_add, h, List.append_assoc]
  exact s.ofBytes_append _

/-- One string at most lies at a place. -/
theorem StrAt.unique {p : ℕ} {s s' : CString} (h : StrAt m p s) (h' : StrAt m p s') : s = s' := by
  have hn : s.bytes.length < s.bytes.length + s'.bytes.length + 1 := by omega
  rw [← h.ofBytes hn, h'.ofBytes (by omega)]

theorem strAt_words {p : ℕ} {s : CString} (h : window m p (words s).length = words s) :
    StrAt m p s := by
  have hr := le_roundup4 (s.bytes.length + 1)
  have hsplit : words s = (s.bytes ++ [0]) ++
      List.replicate (roundup4 (s.bytes.length + 1) - (s.bytes.length + 1)) 0 := by
    rw [words, CString.padded, List.append_assoc, show roundup4 (s.bytes.length + 1) -
      s.bytes.length = roundup4 (s.bytes.length + 1) - (s.bytes.length + 1) + 1 by omega,
      List.replicate_succ]
    rfl
  rw [hsplit] at h
  have h₁ := (window_eq_append.1 h).1
  rwa [List.length_append, List.length_singleton] at h₁

/-- The device name that `bootargs_get_bootimage_pointer` gives is the one added. -/
def DeviceAt (m : ℕ → UInt8) : Option ℕ → Option CString → Prop
  | none, none => True
  | some p, some s => StrAt m p s
  | _, _ => False

/-- **The getters return exactly what was added:** each added value, and that there is none
where none was added. -/
structure Gets (m : ℕ → UInt8) (bufLen : ℕ) (bootArgs : Option ℕ) (tags : List Tag) : Prop where
  commandLine : ∀ fuel > bufLen / 8, ∀ str, .commandLine str ∈ tags →
    ∃ p, bootargsGetCommandLine m bootArgs fuel = some (some p) ∧ StrAt m p str
  noCommandLine : ∀ fuel > bufLen / 8, (∀ str, .commandLine str ∉ tags) →
    bootargsGetCommandLine m bootArgs fuel = some none
  bootimage : ∀ fuel > bufLen / 8, ∀ device offset len, .bootimage device offset len ∈ tags →
    ∃ q, bootargsGetBootimagePointer m bootArgs fuel =
      some (some (offset.toNat, len.toNat, q)) ∧ DeviceAt m q device
  noBootimage : ∀ fuel > bufLen / 8,
    (∀ device offset len, .bootimage device offset len ∉ tags) →
      bootargsGetBootimagePointer m bootArgs fuel = some none

/-- No two different tags of one type. -/
def OneOfEach (tags : List Tag) : Prop := ∀ t ∈ tags, ∀ t' ∈ tags, t.type = t'.type → t = t'

/-- The first tag of a type, where there is one. -/
theorem Holds.findTag (h : Holds m buf bufLen tags) (hone : OneOfEach tags)
    (ht : t ∈ tags) {fuel : ℕ} (hfuel : bufLen / 8 < fuel) :
    ∃ p, findTagFrom m t.type fuel buf = some (some p) ∧ load32 m (p + 4) = t.data.length ∧
      window m (p + 8) t.data.length = t.data := by
  obtain ⟨t', hf⟩ := Option.isSome_iff_exists.1
    (List.find?_isSome.2 ⟨t, ht, decide_eq_true (rfl : t.type = t.type)⟩ :
      (tags.find? fun x => x.type = t.type).isSome)
  have htype : t'.type = t.type := by simpa using List.find?_some hf
  obtain rfl := hone _ (List.mem_of_find?_eq_some hf) _ ht htype
  obtain ⟨-, before, after, rfl, hbefore⟩ := List.find?_eq_some_iff_append.1 hf
  have hlen := h.fuel
  rw [List.length_append] at hlen
  refine ⟨_, findTagFrom_of_at h.tags_at rfl (fun x hx => by simpa using hbefore x hx)
    (by omega), ?_⟩
  have hat : At m (buf + (flat before).length) (t' :: after) := by
    refine ⟨?_, fun x hx => h.tags_at.lens x (List.mem_append_right _ hx)⟩
    have := h.tags_at.bytes
    rw [show flat (before ++ t' :: after) = flat before ++ flat (t' :: after) by simp [flat]] at this
    exact (window_eq_append.1 this).2
  obtain ⟨-, h₂, h₃, -⟩ := hat.cons
  exact ⟨h₂, h₃⟩

theorem Holds.findTag_none (h : Holds m buf bufLen tags) {tag fuel : ℕ}
    (htags : ∀ x ∈ tags, x.type ≠ tag) (hfuel : bufLen / 8 < fuel) :
    findTagFrom m tag fuel buf = some none :=
  findTagFrom_eq_none h.tags_at h.end_eq htags (by have := h.fuel; omega)

/-- **A list in the buffer is read back** exactly when it has no two different tags of one
type. -/
theorem Holds.gets_iff (h : Holds m buf bufLen tags) :
    Gets m bufLen (some buf) tags ↔ OneOfEach tags := by
  constructor
  · intro hg t ht t' ht' htype
    cases t with
    | initial =>
      cases t' with
      | initial => rfl
      | commandLine str => exact absurd htype (by decide : typeInitial ≠ typeCommandLine)
      | bootimage device offset len =>
        exact absurd htype (by decide : typeInitial ≠ typeBootimage)
    | commandLine str =>
      cases t' with
      | initial => exact absurd htype (by decide : typeCommandLine ≠ typeInitial)
      | commandLine str' =>
        obtain ⟨p, hp, hs⟩ := hg.commandLine _ (Nat.lt_succ_self _) _ ht
        obtain ⟨p', hp', hs'⟩ := hg.commandLine _ (Nat.lt_succ_self _) _ ht'
        obtain rfl := Option.some.inj (Option.some.inj (hp.symm.trans hp'))
        rw [hs.unique hs']
      | bootimage device offset len =>
        exact absurd htype (by decide : typeCommandLine ≠ typeBootimage)
    | bootimage device offset len =>
      cases t' with
      | initial => exact absurd htype (by decide : typeBootimage ≠ typeInitial)
      | commandLine str => exact absurd htype (by decide : typeBootimage ≠ typeCommandLine)
      | bootimage device' offset' len' =>
        obtain ⟨q, hq, hd⟩ := hg.bootimage _ (Nat.lt_succ_self _) _ _ _ ht
        obtain ⟨q', hq', hd'⟩ := hg.bootimage _ (Nat.lt_succ_self _) _ _ _ ht'
        have heq := Option.some.inj (Option.some.inj (hq.symm.trans hq'))
        obtain ⟨hoff, heq⟩ := Prod.mk.inj heq
        obtain ⟨hlen, rfl⟩ := Prod.mk.inj heq
        obtain rfl := UInt64.toNat_inj.1 hoff
        obtain rfl := UInt64.toNat_inj.1 hlen
        have hdev : device = device' := by
          cases q with
          | none =>
            cases device with
            | none =>
              cases device' with
              | none => rfl
              | some s => exact hd'.elim
            | some s => exact hd.elim
          | some p =>
            cases device with
            | none => exact hd.elim
            | some s =>
              cases device' with
              | none => exact hd'.elim
              | some s' => exact congrArg some (StrAt.unique hd hd')
        rw [hdev]
  · intro hone
    refine ⟨fun fuel hf str hs => ?_, fun fuel hf hno => ?_, fun fuel hf device offset len hb => ?_,
      fun fuel hf hno => ?_⟩
    · obtain ⟨p, hp, -, hdata⟩ := h.findTag hone hs hf
      refine ⟨p + 8, ?_, strAt_words hdata⟩
      rw [bootargsGetCommandLine, Bootargs.findTag]
      exact congrArg _ hp
    · rw [bootargsGetCommandLine, Bootargs.findTag, h.findTag_none (fun x hx => ?_) hf]
      · rfl
      · cases x with
        | initial => exact (by decide : typeInitial ≠ typeCommandLine)
        | commandLine str => exact absurd hx (hno str)
        | bootimage device offset len => exact (by decide : typeBootimage ≠ typeCommandLine)
    · obtain ⟨p, hp, hlen, hdata⟩ := h.findTag hone hb hf
      obtain ⟨h₁, h₂⟩ := window_eq_append.1 hdata
      rw [length_le] at h₁ h₂
      obtain ⟨h₂, h₃⟩ := window_eq_append.1 h₂
      rw [length_le] at h₂ h₃
      have hoff : load64 m (p + 8) = offset.toNat := by
        rw [load64, h₁, ofLe_le_of_lt (UInt64.toNat_lt offset)]
      have hlen64 : load64 m (p + 16) = len.toNat := by
        rw [load64, h₂, ofLe_le_of_lt (UInt64.toNat_lt len)]
      refine ⟨if (Tag.bootimage device offset len).data.length ≠ 16 then some (p + 24) else none,
        ?_, ?_⟩
      · rw [bootargsGetBootimagePointer, Bootargs.findTag, ← hoff, ← hlen64, ← hlen]
        exact congrArg _ hp
      · cases device with
        | none => trivial
        | some s =>
          have hlong : (Tag.bootimage (some s) offset len).data.length ≠ 16 := by
            have hwords := length_words s
            have := le_roundup4 (s.bytes.length + 1)
            simp only [Tag.data, List.length_append, length_le, Option.map_some,
              Option.getD_some, hwords]
            omega
          rw [if_pos hlong]
          exact strAt_words h₃
    · rw [bootargsGetBootimagePointer, Bootargs.findTag, h.findTag_none (fun x hx => ?_) hf]
      · rfl
      · cases x with
        | initial => exact (by decide : typeInitial ≠ typeBootimage)
        | commandLine str => exact (by decide : typeCommandLine ≠ typeBootimage)
        | bootimage device offset len => exact absurd hx (hno device offset len)

/-! ## Runs -/

/-- The memory, and the tags of the calls that returned success. -/
structure State where
  m : ℕ → UInt8
  tags : List Tag

inductive Op where
  | addCommandLine (str : CString)
  | addBootimagePointer (device : Option CString) (offset len : UInt64)

/-- The tag that a call is to add. -/
def Op.tag : Op → Tag
  | .addCommandLine str => .commandLine str
  | .addBootimagePointer device offset len => .bootimage device offset len

/-- One call. -/
def Op.exec (buf bufLen : ℕ) (m : ℕ → UInt8) : Op → Bool × (ℕ → UInt8)
  | .addCommandLine str => bootargsAddCommandLine m buf bufLen str
  | .addBootimagePointer device offset len =>
    bootargsAddBootimagePointer m buf bufLen device offset len

def step (buf bufLen : ℕ) (s : State) (op : Op) : Option State :=
  let r := op.exec buf bufLen s.m
  some ⟨r.2, if r.1 then s.tags ++ [op.tag] else s.tags⟩

/-- **The list is sound:** it lies in the buffer with its end tag, nothing outside of the
buffer was written, and the getters that are handed it return what was added. -/
structure Sound (m₀ : ℕ → UInt8) (buf bufLen : ℕ) (s : State) : Prop where
  holds : Holds s.m buf bufLen s.tags
  frame : ∀ i, i < buf ∨ buf + bufLen ≤ i → s.m i = m₀ i
  gets : Gets s.m bufLen (bootargsInitHook s.m (bootargsGenerateLkArgValues buf)) s.tags

/-- The tag fits what is left of the buffer, its length fits its word, and a tag of its type
that was added before is the same one. -/
def Op.Fits (bufLen : ℕ) (s : State) (op : Op) : Prop :=
  (flat s.tags).length + op.tag.encode.length + 8 ≤ bufLen ∧ op.tag.data.length < 2 ^ 32 ∧
    ∀ t ∈ s.tags, t.type = op.tag.type → t = op.tag

instance (bufLen : ℕ) (s : State) (op : Op) : Decidable (op.Fits bufLen s) :=
  inferInstanceAs (Decidable (_ ∧ _ ∧ _))

theorem exec_eq {op : Op} {arg : ℕ} (hend : findEnd m buf bufLen = some arg) :
    (op.exec buf bufLen m).1 = true ∧ (op.tag.data.length < 2 ^ 32 →
      (op.exec buf bufLen m).2 = store m arg op.tag.encode) := by
  cases op with
  | addCommandLine str =>
    refine ⟨?_, fun hlt => congrArg Prod.snd (bootargsAddCommandLine_eq hend hlt)⟩
    rw [Op.exec, bootargsAddCommandLine, hend]
  | addBootimagePointer device offset len =>
    refine ⟨?_, fun hlt => congrArg Prod.snd (bootargsAddBootimagePointer_eq hend hlt)⟩
    rw [Op.exec, bootargsAddBootimagePointer, hend]

/-- The list that `bootargs_generate_lk_arg_values` hands on is found. -/
theorem bootargsInitHook_generate (hbuf : buf ≠ 0) (h : Holds m buf bufLen tags)
    (hhead : tags.head? = some .initial) :
    bootargsInitHook m (bootargsGenerateLkArgValues buf) = some buf := by
  have htype : load32 m buf = typeInitial := by
    cases tags with
    | nil => cases hhead
    | cons t tags =>
      cases hhead
      exact h.tags_at.cons.1
  simp [bootargsInitHook, bootargsGenerateLkArgValues, hbuf, htype]

theorem sound_iff {m₀ : ℕ → UInt8} {s : State} (hbuf : buf ≠ 0)
    (hhead : s.tags.head? = some .initial) :
    Sound m₀ buf bufLen s ↔ Holds s.m buf bufLen s.tags ∧
      (∀ i, i < buf ∨ buf + bufLen ≤ i → s.m i = m₀ i) ∧ OneOfEach s.tags := by
  constructor
  · rintro ⟨hh, hf, hg⟩
    rw [bootargsInitHook_generate hbuf hh hhead] at hg
    exact ⟨hh, hf, hh.gets_iff.1 hg⟩
  · rintro ⟨hh, hf, hone⟩
    refine ⟨hh, hf, ?_⟩
    rw [bootargsInitHook_generate hbuf hh hhead]
    exact hh.gets_iff.2 hone

/-- **One call on a sound list** leads to a sound list exactly when its tag fits. -/
theorem Sound.step {m₀ : ℕ → UInt8} {s s' : State} {op : Op} (hbuf : buf ≠ 0)
    (hhead : s.tags.head? = some .initial) (h : Sound m₀ buf bufLen s)
    (hs : step buf bufLen s op = some s') :
    s'.tags.head? = some .initial ∧ (Sound m₀ buf bufLen s' ↔ op.Fits bufLen s) := by
  obtain ⟨hh, hf, hone⟩ := (sound_iff hbuf hhead).1 h
  obtain ⟨hret, hmem⟩ := @exec_eq _ _ _ op _ hh.findEnd
  cases hs
  have hlen : (flat (s.tags ++ [op.tag])).length =
      (flat s.tags).length + op.tag.encode.length := by
    rw [flat_concat, List.length_append]
  have hhead' : (s.tags ++ [op.tag]).head? = some .initial := by
    rw [List.head?_append, hhead]
    rfl
  simp only [hret, if_true]
  refine ⟨hhead', ?_⟩
  rw [sound_iff hbuf (s := ⟨_, _⟩) hhead']
  constructor
  · rintro ⟨hh', -, hone'⟩
    have hroom := hh'.room
    rw [hlen] at hroom
    exact ⟨hroom, hh'.tags_at.lens _ (by simp), fun t ht htype =>
      hone' t (by simp [ht]) _ (by simp) htype⟩
  · rintro ⟨hroom, hlt, hnew⟩
    obtain ⟨hh', hf'⟩ := hh.add (t := op.tag) (by rw [hlen]; exact hroom) hlt
    rw [← hmem hlt] at hh' hf'
    refine ⟨hh', fun i hi => (hf' i hi).trans (hf i hi), fun t ht t' ht' htype => ?_⟩
    rcases List.mem_append.1 ht with ht | ht <;> rcases List.mem_append.1 ht' with ht' | ht'
    · exact hone t ht t' ht' htype
    · obtain rfl := List.mem_singleton.1 ht'
      exact hnew t ht htype
    · obtain rfl := List.mem_singleton.1 ht
      exact (hnew t' ht' htype.symm).symm
    · obtain rfl := List.mem_singleton.1 ht
      exact (List.mem_singleton.1 ht').symm

/-- The calls after `bootargs_start` are served as they should be; where it returns an error it
leaves the memory as it was. -/
def RunSound (m : ℕ → UInt8) (buf bufLen : ℕ) (ops : List Op) : Prop :=
  match bootargsStart m buf bufLen with
  | (false, m') => m' = m
  | (true, m') => Throughout (step buf bufLen) (Sound m buf bufLen) ⟨m', [.initial]⟩ ops

/-- **Which runs keep the list sound.**  For every buffer and every sequence of calls after
`bootargs_start`: the list with its end tag stays in the buffer, nothing else is written and
the getters return what was added, after every call, exactly when the buffer has room for two
tags and every tag that is added fits what is left of it, has a length of 32 bits and is the
first of its type or one that was added before. -/
theorem bootargs_runs_sound_iff {m : ℕ → UInt8} {buf bufLen : ℕ} (hbuf : buf ≠ 0) (ops : List Op) :
    RunSound m buf bufLen ops ↔ bufLen < 8 ∨ 16 ≤ bufLen ∧
      Along (step buf bufLen) (Op.Fits bufLen) ⟨(bootargsStart m buf bufLen).2, [.initial]⟩ ops := by
  rcases Nat.lt_or_ge bufLen 8 with hlt | hge
  · have hstart : bootargsStart m buf bufLen = (false, m) := if_pos hlt
    refine iff_of_true ?_ (.inl hlt)
    rw [RunSound, hstart]
  have hstart : bootargsStart m buf bufLen = (true, (bootargsStart m buf bufLen).2) := by
    rw [bootargsStart, if_neg (by omega)]
  have hflat : (flat [.initial]).length = 8 := by rfl
  rw [RunSound, hstart]
  rcases Nat.lt_or_ge bufLen 16 with hshort | hroom
  · -- the end tag is outside of the buffer
    refine iff_of_false (fun h => ?_) (by omega)
    have hs : Sound m buf bufLen ⟨(bootargsStart m buf bufLen).2, [.initial]⟩ := by
      cases ops with
      | nil => exact h
      | cons op ops => exact h.1
    have := hs.holds.room
    dsimp only at this
    omega
  · obtain ⟨hh, hf⟩ := @holds_start m buf _ hroom
    obtain ⟨s', hs'⟩ := run_total (fun s op => ⟨_, rfl⟩ : ∀ s op, ∃ s', step buf bufLen s op = some s')
      ops ⟨(bootargsStart m buf bufLen).2, [.initial]⟩
    have hone : OneOfEach [.initial] := fun t ht t' ht' _ => by
      rw [List.mem_singleton.1 ht, List.mem_singleton.1 ht']
    have hsound : Sound m buf bufLen ⟨(bootargsStart m buf bufLen).2, [.initial]⟩ :=
      (sound_iff hbuf rfl).2 ⟨hh, hf, hone⟩
    have hiff := @throughout_iff_along _ _ _ _ (fun s => s.tags.head? = some .initial)
      (Sound m buf bufLen) (fun s op s' hi hp h => hp.step hbuf hi h)
      ops _ s' rfl hsound hs'
    dsimp only
    rw [hiff]
    constructor
    · exact fun h => .inr ⟨hroom, h⟩
    · rintro (h | h)
      · omega
      · exact h.2

/-- The command line "quiet" and the image of the device "bdev" fill a buffer of 64 bytes. -/
theorem bootargs_runs_sound_iff_quiet :
    RunSound (fun _ => 0) 4096 64 [.addCommandLine ⟨[113, 117, 105, 101, 116], by decide⟩,
      .addBootimagePointer (some ⟨[98, 100, 101, 118], by decide⟩) 4096 8192] :=
  (bootargs_runs_sound_iff (by decide) _).2 (.inr ⟨by decide, by decide +kernel⟩)

/-- A command line of one character is added to a buffer of 16 bytes, which is full. -/
theorem bootargs_add_overruns :
    ¬ RunSound (fun _ => 0) 4096 16 [.addCommandLine ⟨[97], by decide⟩] := by
  rintro ⟨hs, hnext⟩
  have hs' := hnext _ rfl
  have hfits := (Sound.step (by decide) rfl hs rfl).2.1 hs'
  exact absurd hfits.1 (by decide)

end Bootargs
end LittleKernel
