/-
# Loading an ELF file from memory

`lib/elf/elf.c`: `elf_read_hook_memory`, `verify_eheader`, `elf_load`; `lib/elf/elf_defines.h`.

The loader reads the header, the table of program headers and then every `PT_LOAD` segment
with one hook, which clips what is read to the file.  The hook computes with offsets of 64 bits
and sizes of `size_t`; nothing compares a segment's two sizes.

A build has 32 or 64 bits.  The file and the blocks of the allocation hook are objects in
memory, so the number of their bytes is a positive `ssize_t`.
-/

import LittleKernel.Lib.Bytes
import LittleKernel.Lib.Word

namespace LittleKernel
namespace Elf

open Bytes Word

/-! ### The file -/

/-- What a build decides: `WITH_ELF64`, and the `EM_` number of its machine. -/
structure Build where
  is64 : Bool
  machine : ℕ

/-- The bits of `size_t`. -/
def Build.bits (B : Build) : ℕ := if B.is64 then 64 else 32

/-- `sizeof(elf_ehdr_t)` and `sizeof(elf_phdr_t)`. -/
def Build.ehdrSize (B : Build) : ℕ := if B.is64 then 64 else 52
def Build.phdrSize (B : Build) : ℕ := if B.is64 then 56 else 32

/-- A little-endian number of `n` bytes. -/
def num (b : List UInt8) (i n : ℕ) : ℕ := ofLe (field b i n)

/-- What is used of `elf_ehdr_t`. -/
structure Ehdr where
  ident : List UInt8
  machine : ℕ
  entry : ℕ
  phoff : ℕ
  phentsize : ℕ
  phnum : ℕ

/-- What is used of `elf_phdr_t`. -/
structure Phdr where
  type : ℕ
  offset : ℕ
  filesz : ℕ
  memsz : ℕ
  deriving DecidableEq

/-- The header at the start of some bytes. -/
def Ehdr.ofBytes (B : Build) (b : List UInt8) : Ehdr :=
  if B.is64 then ⟨field b 0 16, num b 18 2, num b 24 8, num b 32 8, num b 54 2, num b 56 2⟩
  else ⟨field b 0 16, num b 18 2, num b 24 4, num b 28 4, num b 42 2, num b 44 2⟩

/-- The program header at an offset. -/
def Phdr.ofBytes (B : Build) (b : List UInt8) (i : ℕ) : Phdr :=
  if B.is64 then ⟨num b i 4, num b (i + 8) 8, num b (i + 32) 8, num b (i + 40) 8⟩
  else ⟨num b i 4, num b (i + 4) 4, num b (i + 16) 4, num b (i + 20) 4⟩

/-- `PT_LOAD`. -/
def ptLoad : ℕ := 1

/-- `verify_eheader`. -/
def verifyEheader (B : Build) (h : Ehdr) : Bool :=
  h.ident.take 4 = [0x7f, 69, 76, 70] && h.ident.getD 4 0 = (if B.is64 then 2 else 1) &&
    h.ident.getD 5 0 = 1 && h.ident.getD 6 0 = 1 && h.phoff ≠ 0 &&
    B.phdrSize ≤ h.phentsize && h.machine = B.machine

/-! ### Reading -/

/-- What loading can do wrong: read outside the file, write outside a buffer or block. -/
inductive Fault
  | read
  | write
  deriving DecidableEq

/-- A number of `w` bits as a signed one. -/
def signed (w x : ℕ) : ℤ := if x < 2 ^ (w - 1) then x else (x : ℤ) - 2 ^ w

/-- `toread` of `elf_read_hook_memory`: the second test may undo the first. -/
def toread (B : Build) (fileLen offset len : ℕ) : ℕ :=
  if fileLen ≤ u64 (offset + len) then subW 64 fileLen offset % 2 ^ B.bits
  else if fileLen ≤ offset then 0
  else len

/-- `elf_read_hook_memory`: the bytes that are copied, and what is returned. -/
def elfReadHookMemory (B : Build) (file : List UInt8) (offset len : ℕ) :
    Except Fault (List UInt8 × ℤ) :=
  let n := toread B file.length offset len
  if n = 0 ∨ offset + n ≤ file.length then .ok ((file.drop offset).take n, signed B.bits n)
  else .error .read

/-- `memcpy` to an offset in a block. -/
def store (block : List UInt8) (i : ℕ) (data : List UInt8) : Except Fault (List UInt8) :=
  if data = [] then .ok block
  else if i + data.length ≤ block.length then
    .ok (block.take i ++ (data ++ block.drop (i + data.length)))
  else .error .write

/-- `memset` of `n` bytes to zero. -/
def zero (block : List UInt8) (i n : ℕ) : Except Fault (List UInt8) :=
  if i + n ≤ block.length then .ok (block.take i ++ (List.replicate n 0 ++ block.drop (i + n)))
  else .error .write

/-- A structure that is read into zeroed memory of its size. -/
def readStruct (B : Build) (file : List UInt8) (offset n : ℕ) :
    Except Fault (List UInt8 × ℤ) :=
  match elfReadHookMemory B file offset n with
  | .error e => .error e
  | .ok (data, readerr) =>
    match store (List.replicate n 0) 0 data with
    | .error e => .error e
    | .ok buf => .ok (buf, readerr)

/-! ### Loading -/

/-- `err.h`. -/
def errNotFound : ℤ := -2
def errNoMemory : ℤ := -5
def errIo : ℤ := -20

/-- `mem_alloc_hook`: a block of the size that is asked for, or an error. -/
structure MemAllocHook (B : Build) where
  alloc : ℕ → ℕ → Except ℤ (List UInt8)
  error_neg : ∀ {len num : ℕ} {err : ℤ}, alloc len num = .error err → err < 0
  length_eq : ∀ {len num : ℕ} {block : List UInt8}, alloc len num = .ok block → block.length = len
  length_lt : ∀ {len num : ℕ} {block : List UInt8}, alloc len num = .ok block →
    block.length < 2 ^ (B.bits - 1)

/-- The body of the loop for a `PT_LOAD` segment: its block, or the error that is returned. -/
def loadSegment (B : Build) (file : List UInt8) (p : Phdr) (block : List UInt8) :
    Except Fault (Except ℤ (List UInt8)) :=
  match elfReadHookMemory B file p.offset p.filesz with
  | .error e => .error e
  | .ok (data, readerr) =>
    match store block 0 data with
    | .error e => .error e
    | .ok block =>
      if readerr < signed B.bits p.filesz then
        .ok (.error (if readerr < 0 then readerr.bmod (2 ^ 32) else errIo))
      else if 0 < subW B.bits p.memsz p.filesz then
        (zero block p.filesz (subW B.bits p.memsz p.filesz)).map .ok
      else .ok (.ok block)

/-- The loop of `elf_load`: the status, and the blocks that were loaded. -/
def loadSegments (B : Build) (hook : MemAllocHook B) (file : List UInt8) :
    ℕ → List Phdr → Except Fault (ℤ × List (List UInt8))
  | _, [] => .ok (0, [])
  | loadCount, p :: ps =>
    if p.type = ptLoad then
      match hook.alloc p.memsz loadCount with
      | .error err => .ok (err, [])
      | .ok block =>
        match loadSegment B file p block with
        | .error e => .error e
        | .ok (.error err) => .ok (err, [])
        | .ok (.ok block) =>
          (loadSegments B hook file (loadCount + 1) ps).map fun r => (r.1, block :: r.2)
    else loadSegments B hook file loadCount ps

/-- What `elf_load` returns, the blocks it loaded, and `handle->entry`. -/
structure Loaded where
  status : ℤ
  blocks : List (List UInt8)
  entry : ℕ
  deriving DecidableEq

/-- A load that ends before the first segment. -/
def Loaded.failed (status : ℤ) : Loaded := ⟨status, [], 0⟩

/-- `elf_load` on a handle of `elf_open_handle_memory`; `calloc` says which sizes it has. -/
def elfLoad (B : Build) (hook : MemAllocHook B) (calloc : ℕ → Bool) (file : List UInt8) :
    Except Fault Loaded :=
  match readStruct B file 0 B.ehdrSize with
  | .error e => .error e
  | .ok (buf, readerr) =>
    let h := Ehdr.ofBytes B buf
    if readerr < B.ehdrSize then .ok (.failed errNotFound)
    else if verifyEheader B h = false then .ok (.failed errNotFound)
    else if 16 < h.phnum ∨ h.phentsize ≠ B.phdrSize then .ok (.failed errNoMemory)
    else if calloc (h.phnum * h.phentsize) = false then .ok (.failed errNoMemory)
    else
      match readStruct B file h.phoff (h.phnum * h.phentsize) with
      | .error e => .error e
      | .ok (buf, readerr) =>
        if readerr < (h.phnum * h.phentsize : ℕ) then .ok (.failed errNoMemory)
        else
          (loadSegments B hook file 0
            ((List.range h.phnum).map fun i => Phdr.ofBytes B buf (i * B.phdrSize))).map
            fun r => ⟨r.1, r.2, if r.1 = 0 then h.entry else 0⟩

/-! ### What is promised, and when -/

/-- The program headers of a file. -/
def phdrs (B : Build) (file : List UInt8) : List Phdr :=
  (List.range (Ehdr.ofBytes B file).phnum).map fun i =>
    Phdr.ofBytes B file ((Ehdr.ofBytes B file).phoff + i * B.phdrSize)

/-- A segment's bytes are in the file and in its block. -/
def Phdr.Inside (p : Phdr) (fileLen : ℕ) : Prop :=
  p.offset + p.filesz ≤ fileLen ∧ p.filesz ≤ p.memsz

/-- The bytes of a loaded segment. -/
def Phdr.image (p : Phdr) (file : List UInt8) : List UInt8 :=
  (file.drop p.offset).take p.filesz ++ List.replicate (p.memsz - p.filesz) 0

/-- **Loading is bounded and exact.** -/
structure Loads (B : Build) (hook : MemAllocHook B) (calloc : ℕ → Bool) (file : List UInt8) :
    Prop where
  bounded : ∃ r, elfLoad B hook calloc file = .ok r
  segments : ∀ r, elfLoad B hook calloc file = .ok r → r.status = 0 →
    List.Forall₂ (fun p block => p.Inside file.length ∧ block = p.image file)
      ((phdrs B file).filter (·.type = ptLoad)) r.blocks

/-- The hook gets nothing although something was asked for, because the sum of offset and
length passes `2 ^ 64` and comes out below the length of the file. -/
def WrapsBelow (fileLen offset len : ℕ) : Prop :=
  2 ^ 64 ≤ offset + len ∧ offset + len - 2 ^ 64 < fileLen

/-- **A segment can be loaded, or is cut short by the end of the file** before it fills more
than its block. -/
def Phdr.Fits (B : Build) (fileLen : ℕ) (p : Phdr) : Prop :=
  p.Inside fileLen ∨ p.filesz < 2 ^ (B.bits - 1) ∧
    (p.offset ≤ fileLen ∧ fileLen < p.offset + p.filesz ∧ p.offset + p.filesz < 2 ^ 64 ∧
      fileLen - p.offset ≤ p.memsz ∨ fileLen ≤ p.offset ∧ WrapsBelow fileLen p.offset p.filesz)

/-- Every `PT_LOAD` segment that the loop comes to fits, if the hook has a block for it. -/
def SegmentsFit (B : Build) (hook : MemAllocHook B) (fileLen : ℕ) : ℕ → List Phdr → Prop
  | _, [] => True
  | loadCount, p :: ps =>
    if p.type = ptLoad then
      ∀ block, hook.alloc p.memsz loadCount = .ok block →
        p.Fits B fileLen ∧ (p.Inside fileLen → SegmentsFit B hook fileLen (loadCount + 1) ps)
    else SegmentsFit B hook fileLen loadCount ps

/-- The load comes to the program headers. -/
structure HeaderOk (B : Build) (calloc : ℕ → Bool) (file : List UInt8) : Prop where
  size : B.ehdrSize ≤ file.length
  verified : verifyEheader B (Ehdr.ofBytes B file) = true
  phnum : (Ehdr.ofBytes B file).phnum ≤ 16
  phentsize : (Ehdr.ofBytes B file).phentsize = B.phdrSize
  memory : calloc ((Ehdr.ofBytes B file).phnum * B.phdrSize) = true

/-- The bytes of the program headers. -/
def tableSize (B : Build) (file : List UInt8) : ℕ := (Ehdr.ofBytes B file).phnum * B.phdrSize

/-- **The program headers start in the file** (or so far behind it that the offset wraps), **and
the segments fit.** -/
structure FileFits (B : Build) (hook : MemAllocHook B) (file : List UInt8) : Prop where
  table : (Ehdr.ofBytes B file).phoff ≤ file.length ∨
    WrapsBelow file.length (Ehdr.ofBytes B file).phoff (tableSize B file)
  segments : (Ehdr.ofBytes B file).phoff + tableSize B file ≤ file.length →
    SegmentsFit B hook file.length 0 (phdrs B file)

/-! ### The hook -/

theorem bits_cases (B : Build) : B.bits = 32 ∨ B.bits = 64 := by
  unfold Build.bits
  split_ifs
  · exact .inr rfl
  · exact .inl rfl

section Hook

variable {B : Build} {file : List UInt8} {offset len : ℕ}

variable (hL : file.length < 2 ^ (B.bits - 1))
include hL

theorem toread_full (hlen : len < 2 ^ B.bits)
    (h : offset + len ≤ file.length) : toread B file.length offset len = len := by
  rcases bits_cases B with hb | hb
  all_goals
    rw [hb] at hL hlen
    unfold toread u64 subW
    rw [hb]
    split_ifs <;> omega

theorem toread_short (hle : offset ≤ file.length)
    (hlt : file.length < offset + len) (h64 : offset + len < 2 ^ 64) :
    toread B file.length offset len = file.length - offset := by
  rcases bits_cases B with hb | hb
  all_goals
    rw [hb] at hL
    unfold toread u64 subW
    rw [hb]
    split_ifs <;> omega

omit hL in
theorem toread_wraps (hle : file.length ≤ offset) (hoff : offset < 2 ^ B.bits)
    (hlen : len < 2 ^ B.bits) (hw : WrapsBelow file.length offset len) :
    toread B file.length offset len = 0 := by
  unfold WrapsBelow at hw
  rcases bits_cases B with hb | hb
  all_goals
    rw [hb] at hoff hlen
    unfold toread u64
    split_ifs <;> omega

omit hL in
theorem signed_of_lt {w x : ℕ} (h : x < 2 ^ (w - 1)) : signed w x = x := if_pos h

/-- Everything that is asked for is read. -/
theorem elfReadHookMemory_full (hlen : len < 2 ^ B.bits) (h : offset + len ≤ file.length) :
    elfReadHookMemory B file offset len = .ok ((file.drop offset).take len, len) := by
  simp only [elfReadHookMemory, toread_full hL hlen h]
  rw [if_pos (.inr h), signed_of_lt (by omega)]

theorem elfReadHookMemory_short (hle : offset ≤ file.length)
    (hlt : file.length < offset + len) (h64 : offset + len < 2 ^ 64) :
    elfReadHookMemory B file offset len = .ok (file.drop offset, (file.length - offset : ℕ)) := by
  simp only [elfReadHookMemory, toread_short hL hle hlt h64]
  rw [if_pos (.inr (by omega)), signed_of_lt (by omega),
    List.take_of_length_le (by rw [List.length_drop])]

omit hL in
theorem elfReadHookMemory_wraps (hle : file.length ≤ offset) (hoff : offset < 2 ^ B.bits)
    (hlen : len < 2 ^ B.bits) (hw : WrapsBelow file.length offset len) :
    elfReadHookMemory B file offset len = .ok ([], 0) := by
  simp only [elfReadHookMemory, toread_wraps hle hoff hlen hw]
  rw [if_pos (.inl trivial), List.take_zero, signed_of_lt (Nat.two_pow_pos _)]
  rfl

/-- **Elsewhere the hook reads outside the file.** -/
theorem elfReadHookMemory_fault (hoff : offset < 2 ^ B.bits)
    (hlen : len < 2 ^ B.bits) (hin : offset ≤ file.length → 2 ^ 64 ≤ offset + len)
    (hw : file.length ≤ offset → ¬ WrapsBelow file.length offset len) :
    elfReadHookMemory B file offset len = .error .read := by
  have hn : toread B file.length offset len ≠ 0 ∧
      file.length < offset + toread B file.length offset len := by
    unfold WrapsBelow at hw
    rcases bits_cases B with hb | hb
    all_goals
      rw [hb] at hL hoff hlen
      unfold toread u64 subW
      rw [hb]
      split_ifs <;> omega
  simp only [elfReadHookMemory]
  rw [if_neg (by omega)]

end Hook

/-! ### One segment -/

/-- A program header's fields fit in the words of the build. -/
structure Phdr.Bounded (B : Build) (p : Phdr) : Prop where
  offset_lt : p.offset < 2 ^ B.bits
  filesz_lt : p.filesz < 2 ^ B.bits
  memsz_lt : p.memsz < 2 ^ B.bits

theorem num_lt (b : List UInt8) (i n : ℕ) : num b i n < 2 ^ (8 * n) := by
  rw [pow_mul]
  exact ofLe_field_lt b i n

theorem Phdr.bounded_ofBytes (B : Build) (b : List UInt8) (i : ℕ) :
    (Phdr.ofBytes B b i).Bounded B := by
  unfold Phdr.ofBytes
  split_ifs with h
  · have hb : B.bits = 8 * 8 := by rw [Build.bits, if_pos h]
    constructor
    all_goals
      rw [hb]
      exact num_lt b _ 8
  · have hb : B.bits = 8 * 4 := by rw [Build.bits, if_neg h]
    constructor
    all_goals
      rw [hb]
      exact num_lt b _ 4

theorem two_pow_bits (B : Build) : 2 ^ B.bits = 2 * 2 ^ (B.bits - 1) := by
  rcases bits_cases B with h | h
  · rw [h]
    norm_num
  · rw [h]
    norm_num

theorem two_pow_bits_le (B : Build) : 2 ^ B.bits ≤ 2 ^ 64 := by
  rcases bits_cases B with h | h
  · rw [h]
    norm_num
  · rw [h]

section Segment

variable {B : Build} {file block : List UInt8} {p : Phdr}

theorem store_start {data : List UInt8} (h : data.length ≤ block.length) :
    store block 0 data = .ok (data ++ block.drop data.length) := by
  unfold store
  split_ifs with hnil hle
  · rw [hnil]
    rfl
  · rw [Nat.zero_add]
    rfl
  · omega

variable (hL : file.length < 2 ^ (B.bits - 1))
include hL

/-- **A segment whose bytes are there is loaded.** -/
theorem loadSegment_inside (hp : p.Bounded B)
    (hblock : block.length = p.memsz) (hlt : block.length < 2 ^ (B.bits - 1))
    (h : p.Inside file.length) : loadSegment B file p block = .ok (.ok (p.image file)) := by
  obtain ⟨hend, hle⟩ := h
  have hdata : ((file.drop p.offset).take p.filesz).length = p.filesz := by
    rw [List.length_take, List.length_drop]
    omega
  simp only [loadSegment, elfReadHookMemory_full hL hp.filesz_lt hend]
  rw [store_start (by omega)]
  simp only [hdata]
  rw [signed_of_lt (by omega), if_neg (lt_irrefl _), subW_of_le hp.memsz_lt hle]
  have hlen : ((file.drop p.offset).take p.filesz ++ block.drop p.filesz).length = p.memsz := by
    rw [List.length_append, hdata, List.length_drop]
    omega
  split_ifs with hzero
  · have hdrop : ((file.drop p.offset).take p.filesz ++ block.drop p.filesz).drop
        (p.filesz + (p.memsz - p.filesz)) = [] := List.drop_of_length_le (by omega)
    rw [zero, if_pos (by omega), List.take_left' hdata, hdrop, List.append_nil]
    rfl
  · have hdrop : block.drop p.filesz = [] := List.drop_of_length_le (by omega)
    rw [Phdr.image, hdrop, Nat.eq_zero_of_not_pos hzero]
    rfl

/-- **A segment that the file's end cuts short** is an error. -/
theorem loadSegment_short (hp : p.Bounded B)
    (hblock : block.length = p.memsz) (h : p.Fits B file.length) (hin : ¬ p.Inside file.length) :
    loadSegment B file p block = .ok (.error errIo) := by
  obtain ⟨hsz, ⟨hle, hlt, h64, hfit⟩ | ⟨hle, hw⟩⟩ := h.resolve_left hin
  · simp only [loadSegment, elfReadHookMemory_short hL hle hlt h64]
    rw [store_start (by rw [List.length_drop]; omega)]
    simp only [signed_of_lt hsz]
    rw [if_pos (by omega), if_neg (by omega)]
  · simp only [loadSegment, elfReadHookMemory_wraps hle hp.offset_lt hp.filesz_lt hw]
    rw [store_start (Nat.zero_le _)]
    simp only [signed_of_lt hsz]
    have := hw.1
    have := two_pow_bits_le B
    have := hp.offset_lt
    rw [if_pos (by omega), if_neg (by omega)]

omit hL in
/-- A segment that fills more than its block is written outside it. -/
theorem loadSegment_overflow {data : List UInt8} {readerr : ℤ} (hblock : block.length = p.memsz)
    (hp : p.Bounded B) (hread : elfReadHookMemory B file p.offset p.filesz = .ok (data, readerr))
    (h : p.memsz < data.length ∨ signed B.bits p.filesz ≤ readerr ∧ p.memsz < p.filesz) :
    ∃ e, loadSegment B file p block = .error e := by
  simp only [loadSegment, hread]
  by_cases hd : p.memsz < data.length
  · have hstore : store block 0 data = .error .write := by
      have hne : data ≠ [] := by
        rintro rfl
        exact absurd hd (Nat.not_lt_zero _)
      rw [store, if_neg hne, if_neg (by omega)]
    rw [hstore]
    exact ⟨_, rfl⟩
  · obtain ⟨hreaderr, hsz⟩ := h.resolve_left hd
    rw [store_start (by omega)]
    have hpos : 0 < subW B.bits p.memsz p.filesz := by
      have := hp.filesz_lt
      have := hp.memsz_lt
      unfold subW
      rw [Nat.mod_eq_of_lt hp.filesz_lt, Nat.mod_eq_of_lt (by omega)]
      omega
    simp only
    rw [if_neg (not_lt.2 hreaderr), if_pos hpos, zero, if_neg]
    · exact ⟨_, rfl⟩
    · rw [List.length_append, List.length_drop]
      omega

/-- **Every other segment** is read outside the file or written outside its block. -/
theorem loadSegment_fault (hp : p.Bounded B)
    (hblock : block.length = p.memsz) (hlt : block.length < 2 ^ (B.bits - 1))
    (h : ¬ p.Fits B file.length) : ∃ e, loadSegment B file p block = .error e := by
  unfold Phdr.Fits at h
  rw [not_or] at h
  obtain ⟨hin, hshort⟩ := h
  have hpow := two_pow_bits B
  have hbig : ¬ p.filesz < 2 ^ (B.bits - 1) → signed B.bits p.filesz < 0 := by
    intro hbig
    rw [signed, if_neg hbig]
    exact Int.sub_neg_of_lt (by exact_mod_cast hp.filesz_lt)
  by_cases hw : file.length ≤ p.offset ∧ WrapsBelow file.length p.offset p.filesz
  · -- nothing is read, and a length with its top bit set passes for a negative one
    have hsz : ¬ p.filesz < 2 ^ (B.bits - 1) := fun hsz => hshort ⟨hsz, .inr hw⟩
    refine loadSegment_overflow hblock hp
      (elfReadHookMemory_wraps hw.1 hp.offset_lt hp.filesz_lt hw.2) (.inr ⟨(hbig hsz).le, ?_⟩)
    omega
  by_cases hread : p.offset ≤ file.length ∧ p.offset + p.filesz < 2 ^ 64
  · rcases Nat.lt_or_ge file.length (p.offset + p.filesz) with hcut | hfull
    · refine loadSegment_overflow hblock hp
        (elfReadHookMemory_short hL hread.1 hcut hread.2) ?_
      rw [List.length_drop]
      by_cases hsz : p.filesz < 2 ^ (B.bits - 1)
      · refine .inl ?_
        by_contra hle
        exact hshort ⟨hsz, .inl ⟨hread.1, hcut, hread.2, by omega⟩⟩
      · exact .inr ⟨(hbig hsz).le.trans (by omega), by omega⟩
    · have hover : p.memsz < p.filesz := by
        by_contra hle
        exact hin ⟨hfull, by omega⟩
      refine loadSegment_overflow hblock hp (elfReadHookMemory_full hL hp.filesz_lt hfull)
        (.inl ?_)
      rw [List.length_take, List.length_drop]
      omega
  · rw [loadSegment, elfReadHookMemory_fault hL hp.offset_lt hp.filesz_lt (by omega)
      fun hle hwb => hw ⟨hle, hwb⟩]
    exact ⟨_, rfl⟩

end Segment

/-! ### All segments -/

section Segments

variable {B : Build} {file : List UInt8} (hook : MemAllocHook B)

/-- **The loop stays inside the file and the blocks exactly where the segments fit.** -/
theorem loadSegments_ok_iff (hL : file.length < 2 ^ (B.bits - 1)) {ps : List Phdr}
    (hps : ∀ p ∈ ps, p.Bounded B) (loadCount : ℕ) :
    (∃ r, loadSegments B hook file loadCount ps = .ok r) ↔
      SegmentsFit B hook file.length loadCount ps := by
  induction ps generalizing loadCount with
  | nil => exact iff_of_true ⟨_, rfl⟩ trivial
  | cons p ps ih =>
    have hp := hps p List.mem_cons_self
    have ih := ih fun q hq => hps q (List.mem_cons_of_mem _ hq)
    rw [loadSegments, SegmentsFit]
    by_cases htype : p.type = ptLoad
    · rw [if_pos htype, if_pos htype]
      cases halloc : hook.alloc p.memsz loadCount with
      | error err => exact iff_of_true ⟨_, rfl⟩ fun _ h => nomatch h
      | ok block =>
        have hblock := hook.length_eq halloc
        have hlt := hook.length_lt halloc
        by_cases hfit : p.Fits B file.length
        · by_cases hin : p.Inside file.length
          · simp only [loadSegment_inside hL hp hblock hlt hin, Except.ok.injEq,
              forall_eq', hfit, hin, true_and, forall_true_left]
            rw [← ih (loadCount + 1)]
            cases loadSegments B hook file (loadCount + 1) ps with
            | error e => exact iff_of_false (fun ⟨_, h⟩ => nomatch h) fun ⟨_, h⟩ => nomatch h
            | ok r => exact iff_of_true ⟨_, rfl⟩ ⟨_, rfl⟩
          · simp only [loadSegment_short hL hp hblock hfit hin]
            exact iff_of_true ⟨_, rfl⟩ fun _ _ => ⟨hfit, fun h => absurd h hin⟩
        · obtain ⟨e, he⟩ := loadSegment_fault hL hp hblock hlt hfit
          simp only [he]
          exact iff_of_false (fun ⟨_, h⟩ => nomatch h) fun h => hfit (h block rfl).1
    · rw [if_neg htype, if_neg htype]
      exact ih loadCount

/-- **What was loaded with no error is the image of every segment.** -/
theorem loadSegments_blocks (hL : file.length < 2 ^ (B.bits - 1)) {ps : List Phdr}
    (hps : ∀ p ∈ ps, p.Bounded B) {loadCount : ℕ} {blocks : List (List UInt8)}
    (h : loadSegments B hook file loadCount ps = .ok (0, blocks)) :
    List.Forall₂ (fun p block => p.Inside file.length ∧ block = p.image file)
      (ps.filter (·.type = ptLoad)) blocks := by
  induction ps generalizing loadCount blocks with
  | nil =>
    obtain ⟨-, rfl⟩ := Prod.mk.inj (Except.ok.inj h)
    exact .nil
  | cons p ps ih =>
    have hp := hps p List.mem_cons_self
    have hps' : ∀ q ∈ ps, q.Bounded B := fun q hq => hps q (List.mem_cons_of_mem _ hq)
    rw [loadSegments] at h
    by_cases htype : p.type = ptLoad
    · rw [if_pos htype] at h
      rw [List.filter_cons_of_pos (by simpa using htype)]
      cases halloc : hook.alloc p.memsz loadCount with
      | error err =>
        rw [halloc] at h
        obtain ⟨rfl, -⟩ := Prod.mk.inj (Except.ok.inj h)
        exact absurd (hook.error_neg halloc) (lt_irrefl 0)
      | ok block =>
        have hblock := hook.length_eq halloc
        have hlt := hook.length_lt halloc
        rw [halloc] at h
        by_cases hin : p.Inside file.length
        · simp only [loadSegment_inside hL hp hblock hlt hin] at h
          cases hrest : loadSegments B hook file (loadCount + 1) ps with
          | error e =>
            rw [hrest] at h
            cases h
          | ok r =>
            rw [hrest] at h
            obtain ⟨hr, rfl⟩ := Prod.mk.inj (Except.ok.inj h)
            have hrest' : loadSegments B hook file (loadCount + 1) ps = .ok (0, r.2) := by
              rw [hrest, ← hr]
            exact .cons ⟨hin, rfl⟩ (ih hps' hrest')
        · by_cases hfit : p.Fits B file.length
          · simp only [loadSegment_short hL hp hblock hfit hin] at h
            exact absurd (Prod.mk.inj (Except.ok.inj h)).1 (by decide)
          · obtain ⟨e, he⟩ := loadSegment_fault hL hp hblock hlt hfit
            simp only [he] at h
            cases h
    · rw [if_neg htype] at h
      rw [List.filter_cons_of_neg (by simpa using htype)]
      exact ih hps' h

end Segments

/-! ### The headers -/

theorem field_take (l : List UInt8) {i k n : ℕ} (h : i + k ≤ n) :
    field (l.take n) i k = field l i k := by
  refine List.map_congr_left fun j hj => ?_
  have hj := List.mem_range.1 hj
  rw [List.getD_eq_getElem?_getD, List.getD_eq_getElem?_getD, List.getElem?_take_of_lt (by omega)]

theorem field_drop (l : List UInt8) (a i k : ℕ) : field (l.drop a) i k = field l (a + i) k := by
  refine List.map_congr_left fun j _ => ?_
  rw [List.getD_eq_getElem?_getD, List.getD_eq_getElem?_getD, List.getElem?_drop, Nat.add_assoc]

/-- The copy of the header has the fields of the file. -/
theorem ofBytes_take (B : Build) (file : List UInt8) :
    Ehdr.ofBytes B (file.take B.ehdrSize) = Ehdr.ofBytes B file := by
  unfold Ehdr.ofBytes Build.ehdrSize num
  split_ifs
  · simp only [field_take file (by omega : 0 + 16 ≤ 64), field_take file
      (by omega : 18 + 2 ≤ 64), field_take file (by omega : 24 + 8 ≤ 64), field_take file
      (by omega : 32 + 8 ≤ 64), field_take file (by omega : 54 + 2 ≤ 64), field_take file
      (by omega : 56 + 2 ≤ 64)]
  · simp only [field_take file (by omega : 0 + 16 ≤ 52), field_take file
      (by omega : 18 + 2 ≤ 52), field_take file (by omega : 24 + 4 ≤ 52), field_take file
      (by omega : 28 + 4 ≤ 52), field_take file (by omega : 42 + 2 ≤ 52), field_take file
      (by omega : 44 + 2 ≤ 52)]

/-- The copy of a program header has the fields of the file. -/
theorem ofBytes_drop_take (B : Build) (file : List UInt8) {a i n : ℕ} (h : i + B.phdrSize ≤ n) :
    Phdr.ofBytes B ((file.drop a).take n) i = Phdr.ofBytes B file (a + i) := by
  unfold Build.phdrSize at h
  unfold Phdr.ofBytes num
  split_ifs with h64
  · rw [if_pos h64] at h
    rw [field_take _ (by omega), field_take _ (by omega), field_take _ (by omega),
      field_take _ (by omega), field_drop, field_drop, field_drop, field_drop]
    simp only [Nat.add_assoc]
  · rw [if_neg h64] at h
    rw [field_take _ (by omega), field_take _ (by omega), field_take _ (by omega),
      field_take _ (by omega), field_drop, field_drop, field_drop, field_drop]
    simp only [Nat.add_assoc]

theorem phoff_lt (B : Build) (b : List UInt8) : (Ehdr.ofBytes B b).phoff < 2 ^ B.bits := by
  unfold Ehdr.ofBytes Build.bits
  split_ifs
  · exact num_lt b 32 8
  · exact num_lt b 28 4

section Table

variable {B : Build} {file : List UInt8} {offset n : ℕ}

variable (hL : file.length < 2 ^ (B.bits - 1))
include hL

theorem readStruct_full (hn : n < 2 ^ B.bits) (h : offset + n ≤ file.length) :
    readStruct B file offset n = .ok ((file.drop offset).take n, n) := by
  have hlen : ((file.drop offset).take n).length = n := by
    rw [List.length_take, List.length_drop]
    omega
  simp only [readStruct, elfReadHookMemory_full hL hn h]
  rw [store_start (by rw [hlen, List.length_replicate]), hlen, List.drop_replicate, Nat.sub_self,
    List.replicate_zero, List.append_nil]

/-- A structure that is not there as a whole is read in part, or not at all. -/
theorem readStruct_part (hoff : offset < 2 ^ B.bits)
    (hn : n < 2 ^ (B.bits - 1)) (h : file.length < offset + n)
    (hin : offset ≤ file.length ∨ WrapsBelow file.length offset n) :
    ∃ buf readerr, readStruct B file offset n = .ok (buf, readerr) ∧ readerr < n := by
  have hpow := two_pow_bits B
  have hle64 := two_pow_bits_le B
  rcases Nat.lt_or_ge file.length offset with hlt | hge
  · have hw := hin.resolve_left (by omega)
    simp only [readStruct, elfReadHookMemory_wraps hlt.le hoff (by omega) hw]
    rw [store_start (Nat.zero_le _)]
    have := hw.1
    exact ⟨_, 0, rfl, by omega⟩
  · simp only [readStruct, elfReadHookMemory_short hL hge h (by omega)]
    rw [store_start (by rw [List.length_drop, List.length_replicate]; omega)]
    exact ⟨_, _, rfl, by omega⟩

theorem readStruct_fault (hoff : offset < 2 ^ B.bits)
    (hn : n < 2 ^ (B.bits - 1)) (hlt : file.length < offset)
    (hw : ¬ WrapsBelow file.length offset n) : readStruct B file offset n = .error .read := by
  have hpow := two_pow_bits B
  rw [readStruct, elfReadHookMemory_fault hL hoff (by omega) (by omega) fun _ => hw]

end Table

/-! ### Loading a file -/

section Load

variable {B : Build} (hook : MemAllocHook B) (calloc : ℕ → Bool) {file : List UInt8}

theorem ehdrSize_lt (B : Build) : B.ehdrSize < 2 ^ (B.bits - 1) := by
  unfold Build.ehdrSize Build.bits
  split_ifs <;> norm_num

/-- The header of a file that has one is read. -/
theorem readStruct_header (hL : file.length < 2 ^ (B.bits - 1)) (h : B.ehdrSize ≤ file.length) :
    readStruct B file 0 B.ehdrSize = .ok (file.take B.ehdrSize, B.ehdrSize) := by
  have hpow := two_pow_bits B
  have hsize := ehdrSize_lt B
  exact readStruct_full hL (by omega) (by omega)

/-- Where the program headers are not come to, an error is returned. -/
theorem elfLoad_failed (hL : file.length < 2 ^ (B.bits - 1)) (h : ¬ HeaderOk B calloc file) :
    ∃ status, status ≠ 0 ∧ elfLoad B hook calloc file = .ok (.failed status) := by
  have hpow := two_pow_bits B
  have hsize := ehdrSize_lt B
  rcases Nat.lt_or_ge file.length B.ehdrSize with hlt | hge
  · obtain ⟨buf, readerr, hread, hshort⟩ :=
      readStruct_part hL (Nat.two_pow_pos _) hsize (by omega) (.inl (Nat.zero_le _))
    refine ⟨errNotFound, by decide, ?_⟩
    simp only [elfLoad, hread]
    rw [if_pos hshort]
  · simp only [elfLoad, readStruct_header hL hge, ofBytes_take, lt_irrefl, if_false]
    split_ifs with hv hn hm
    · exact ⟨errNotFound, by decide, rfl⟩
    · exact ⟨errNoMemory, by decide, rfl⟩
    · exact ⟨errNoMemory, by decide, rfl⟩
    · rw [not_or, not_lt, not_not] at hn
      rw [Bool.not_eq_false] at hv hm
      exact absurd ⟨hge, hv, hn.1, hn.2, by rwa [hn.2] at hm⟩ h

/-- Where they are come to, they are read and the segments loaded. -/
theorem elfLoad_headerOk (hL : file.length < 2 ^ (B.bits - 1)) (h : HeaderOk B calloc file) :
    elfLoad B hook calloc file =
      match readStruct B file (Ehdr.ofBytes B file).phoff (tableSize B file) with
      | .error e => .error e
      | .ok (buf, readerr) =>
        if readerr < (tableSize B file : ℕ) then .ok (.failed errNoMemory)
        else
          (loadSegments B hook file 0 ((List.range (Ehdr.ofBytes B file).phnum).map fun i =>
            Phdr.ofBytes B buf (i * B.phdrSize))).map
            fun r => ⟨r.1, r.2, if r.1 = 0 then (Ehdr.ofBytes B file).entry else 0⟩ := by
  have hnum : ¬ (16 < (Ehdr.ofBytes B file).phnum ∨
      (Ehdr.ofBytes B file).phentsize ≠ B.phdrSize) := by
    rw [not_or, not_lt, not_not]
    exact ⟨h.phnum, h.phentsize⟩
  simp only [elfLoad, readStruct_header hL h.size, ofBytes_take, lt_irrefl, if_false]
  rw [if_neg (by rw [h.verified]; decide), if_neg hnum,
    if_neg (by rw [h.phentsize, h.memory]; decide), h.phentsize]
  rfl

theorem tableSize_lt {calloc : ℕ → Bool} (h : HeaderOk B calloc file) :
    tableSize B file < 2 ^ (B.bits - 1) := by
  have hle : tableSize B file ≤ 16 * B.phdrSize := Nat.mul_le_mul_right _ h.phnum
  refine hle.trans_lt ?_
  unfold Build.phdrSize Build.bits
  split_ifs <;> norm_num

/-- Where the whole table is in the file, its segments are loaded. -/
theorem elfLoad_table (hL : file.length < 2 ^ (B.bits - 1)) (h : HeaderOk B calloc file)
    (htable : (Ehdr.ofBytes B file).phoff + tableSize B file ≤ file.length) :
    elfLoad B hook calloc file = (loadSegments B hook file 0 (phdrs B file)).map
      fun r => ⟨r.1, r.2, if r.1 = 0 then (Ehdr.ofBytes B file).entry else 0⟩ := by
  have hpow := two_pow_bits B
  have hlt := tableSize_lt h
  have hcopy : ((List.range (Ehdr.ofBytes B file).phnum).map fun i => Phdr.ofBytes B
      ((file.drop (Ehdr.ofBytes B file).phoff).take (tableSize B file)) (i * B.phdrSize)) =
      phdrs B file := by
    refine List.map_congr_left fun i hi => ofBytes_drop_take B file ?_
    have hi := Nat.succ_le_of_lt (List.mem_range.1 hi)
    have hmul := Nat.mul_le_mul_right B.phdrSize hi
    rw [Nat.succ_mul] at hmul
    exact hmul
  rw [elfLoad_headerOk hook calloc hL h, readStruct_full hL (by omega) htable]
  simp only
  rw [if_neg (lt_irrefl _), hcopy]

theorem phdrs_bounded (B : Build) (file : List UInt8) : ∀ p ∈ phdrs B file, p.Bounded B := by
  intro p hp
  obtain ⟨i, -, rfl⟩ := List.mem_map.1 hp
  exact Phdr.bounded_ofBytes B file _

/-- **Loading a file is bounded and exact precisely where, once its header is accepted, the
program headers start in the file and every segment that is come to fits**: a segment's bytes
lie in the file and in its block, or the end of the file cuts it short.  A start behind the end
of the file, a file size above the memory size and a sum that wraps are not caught. -/
theorem elfLoad_loads_iff (hL : file.length < 2 ^ (B.bits - 1)) :
    Loads B hook calloc file ↔ (HeaderOk B calloc file → FileFits B hook file) := by
  by_cases hok : HeaderOk B calloc file
  · have hlt := tableSize_lt hok
    have hoff := phoff_lt B file
    by_cases htable : (Ehdr.ofBytes B file).phoff + tableSize B file ≤ file.length
    · have hload := elfLoad_table hook calloc hL hok htable
      have hiff := loadSegments_ok_iff hook hL (phdrs_bounded B file) 0
      constructor
      · rintro ⟨⟨r, hr⟩, -⟩ -
        refine ⟨.inl (by omega), fun _ => hiff.1 ?_⟩
        rw [hload] at hr
        cases hs : loadSegments B hook file 0 (phdrs B file) with
        | error e =>
          rw [hs] at hr
          cases hr
        | ok s => exact ⟨s, rfl⟩
      · intro h
        obtain ⟨s, hs⟩ := hiff.2 ((h hok).segments htable)
        rw [hs] at hload
        refine ⟨⟨_, hload⟩, fun r hr h0 => ?_⟩
        rw [hload] at hr
        obtain rfl := Except.ok.inj hr
        have h0 : s.1 = 0 := h0
        have hs' : loadSegments B hook file 0 (phdrs B file) = .ok (0, s.2) := by rw [hs, ← h0]
        exact loadSegments_blocks hook hL (phdrs_bounded B file) hs'
    · have hno : ¬ ((Ehdr.ofBytes B file).phoff + tableSize B file ≤ file.length) := htable
      constructor
      · rintro ⟨⟨r, hr⟩, -⟩ -
        refine ⟨?_, fun h => absurd h hno⟩
        by_contra hout
        rw [not_or] at hout
        rw [elfLoad_headerOk hook calloc hL hok,
          readStruct_fault hL hoff hlt (by omega) hout.2] at hr
        cases hr
      · intro h
        obtain ⟨buf, readerr, hread, hshort⟩ :=
          readStruct_part hL hoff hlt (by omega) (h hok).table
        have hload : elfLoad B hook calloc file = .ok (.failed errNoMemory) := by
          rw [elfLoad_headerOk hook calloc hL hok, hread]
          exact if_pos hshort
        refine ⟨⟨_, hload⟩, fun r hr h0 => ?_⟩
        rw [hload] at hr
        obtain rfl := Except.ok.inj hr
        exact absurd h0 (by decide)
  · obtain ⟨status, hne, hload⟩ := elfLoad_failed hook calloc hL hok
    refine iff_of_true ⟨⟨_, hload⟩, fun r hr h0 => ?_⟩ fun h => absurd h hok
    rw [hload] at hr
    obtain rfl := Except.ok.inj hr
    exact absurd h0 hne

end Load

/-- The build of an arm64 kernel. -/
def arm64 : Build := ⟨true, 183⟩

/-- A hook that has memory for every block of a positive `ssize_t`. -/
def heap (B : Build) : MemAllocHook B where
  alloc len _ :=
    if len < 2 ^ (B.bits - 1) then .ok (List.replicate len 0xff) else .error errNoMemory
  error_neg h := by
    split_ifs at h
    cases h
    decide
  length_eq h := by
    split_ifs at h
    cases h
    exact List.length_replicate
  length_lt h := by
    split_ifs at h with hlt
    cases h
    rwa [List.length_replicate]

/-- A header of 64 bytes, the program header of a segment of four bytes that takes `memsz` bytes
of memory, and the four bytes. -/
def oneSegment (memsz : UInt8) : List UInt8 :=
  [0x7f, 69, 76, 70, 2, 1, 1] ++ List.replicate 9 0 ++ [2, 0, 183, 0, 1, 0, 0, 0] ++
    List.replicate 8 0 ++ [64] ++ List.replicate 21 0 ++ [56, 0, 1, 0] ++ List.replicate 6 0 ++
    [1, 0, 0, 0, 0, 0, 0, 0, 120] ++ List.replicate 23 0 ++ [4] ++ List.replicate 7 0 ++
    [memsz] ++ List.replicate 15 0 ++ [5, 6, 7, 8]

/-- The four bytes are loaded, and two zeros behind them. -/
theorem elfLoad_loads_iff_oneSegment :
    Loads arm64 (heap arm64) (fun _ => true) (oneSegment 6) ∧
      elfLoad arm64 (heap arm64) (fun _ => true) (oneSegment 6) =
        .ok ⟨0, [[5, 6, 7, 8, 0, 0]], 0⟩ := by
  have hphdrs : phdrs arm64 (oneSegment 6) = [⟨ptLoad, 120, 4, 6⟩] := by decide +kernel
  refine ⟨(elfLoad_loads_iff (heap arm64) (fun _ => true) (by decide +kernel)).2 fun _ =>
    ⟨.inl (by decide +kernel), fun _ => ?_⟩, by decide +kernel⟩
  rw [hphdrs, SegmentsFit, if_pos rfl]
  exact fun block _ => ⟨.inl ⟨by decide +kernel, by decide⟩, fun _ => trivial⟩

/-- Four bytes are copied into a block of two. -/
theorem oneSegment_not_loads : ¬ ∀ (B : Build) (hook : MemAllocHook B) (calloc : ℕ → Bool)
    (file : List UInt8), file.length < 2 ^ (B.bits - 1) → Loads B hook calloc file := by
  intro h
  obtain ⟨r, hr⟩ := (h arm64 (heap arm64) (fun _ => true) (oneSegment 2)
    (by decide +kernel)).bounded
  have hfault : elfLoad arm64 (heap arm64) (fun _ => true) (oneSegment 2) = .error .write := by
    decide +kernel
  rw [hfault] at hr
  cases hr

end Elf
end LittleKernel
