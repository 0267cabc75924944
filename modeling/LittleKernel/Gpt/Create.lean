/-
# Creating a GPT from a PIT

`lib/gpt/part_gpt.c`: `set_gpt_header`, `set_partition_table`, `write_gpt_table`,
`gpt_create` and `gpt_compare_chk`; `lib/gpt/guid.c`: `uid_str_to_bin`.

The header takes its limits from the layout of the PIT; the builder walks over all entries
of the PIT with a file system and places them one behind the other, in device blocks.  Both
are written twice: behind the protective MBR, and behind the last usable block and in the
last block.  `gpt_compare_chk` builds them again and compares.

The number of blocks of entries that are written and compared is the length of the table
divided by one more than the block size, so 124 entries of 128 on MMC and 96 on UFS
(`pteBlkCnt_eq`).  The second header is completed without clearing `head_crc` first
(`backupHeader`).
-/

import LittleKernel.Gpt.Pit
import LittleKernel.Cksum

namespace LittleKernel
namespace Pit

open Memory Word Bytes

/-! ### Identifiers -/

/-- The value of a hexadecimal digit. -/
def hexDigit (c : Char) : Option ℕ :=
  if '0' ≤ c ∧ c ≤ '9' then some (c.toNat - '0'.toNat)
  else if 'a' ≤ c ∧ c ≤ 'f' then some (c.toNat - 'a'.toNat + 10)
  else if 'A' ≤ c ∧ c ≤ 'F' then some (c.toNat - 'A'.toNat + 10)
  else none

/-- `simple_strtoul` in base 16. -/
def simpleStrtoul : ℕ → List Char → ℕ
  | result, [] => result
  | result, c :: cs =>
    match hexDigit c with
    | some v => simpleStrtoul (result * 16 + v) cs
    | none => result

/-- `uid_str_valid`. -/
def uidStrValid (uid : List Char) : Bool :=
  uid.length = 36 && (List.range 36).all fun i =>
    if i = 8 ∨ i = 13 ∨ i = 18 ∨ i = 23 then uid.getD i ' ' = '-'
    else (hexDigit (uid.getD i ' ')).isSome

/-- `uid_str_to_bin`: the first three fields big-endian for `UID_STR_STD`. -/
def uidStrToBin (uid : List Char) (std : Bool) : Option (List UInt8) :=
  if uidStrValid uid then
    let f := fun off n => le n (simpleStrtoul 0 (uid.drop off))
    let g := fun off n => if std then (f off n).reverse else f off n
    some (g 0 4 ++ g 9 2 ++ g 14 2 ++ (f 19 2).reverse ++ (f 24 6).reverse)
  else none

/-- `UUID_DISK` and `EXYNOS_UNIQUE_GUID`, and a byte in two digits. -/
def uuidDisk : List Char := "12345678-1234-1234-1234-123456789012".toList
def exynosUniqueGuid : List Char := "4558594e-4f53-534c-7369-504152543d".toList
def hex2 (n : ℕ) : List Char :=
  let digit := fun k => Char.ofNat (if k < 10 then 48 + k else 87 + k)
  if n < 256 then [digit (n / 16), digit (n % 16)] else [digit (n / 256), digit (n / 16 % 16),
    digit (n % 16)]

/-- `PARTITION_BASIC_DATA_GUID`. -/
def basicDataGuid : List UInt8 :=
  [0xA2, 0xA0, 0xD0, 0xEB, 0xE5, 0xB9, 0x33, 0x44, 0x87, 0xC0, 0x68, 0xB6, 0xB7, 0x26, 0x99, 0xC7]

/-! ### The header -/

/-- The fields of a `struct gpt_header` that differ between headers. -/
structure GptHeader where
  headCrc : ℕ
  gptHeader : ℕ
  gptBackHeader : ℕ
  startLba : ℕ
  endLba : ℕ
  guid : List UInt8
  partNumEntry : ℕ
  partTableCrc : ℕ

/-- What stands in front of `head_crc`: signature, revision and `head_sz`, which is
`HEAD_SIZE`. -/
def headFront : List UInt8 := le 8 0x5452415020494645 ++ le 4 0x00010000 ++ le 4 92

/-- What stands between `head_crc` and `part_num_entry`. -/
def GptHeader.middle (h : GptHeader) : List UInt8 :=
  le 4 0 ++ le 8 h.gptHeader ++ le 8 h.gptBackHeader ++ le 8 h.startLba ++ le 8 h.endLba ++
    h.guid ++ le 8 2

/-- The first 92 bytes of a header. -/
def GptHeader.encode (h : GptHeader) : List UInt8 :=
  headFront ++ (le 4 h.headCrc ++ (h.middle ++ (le 4 h.partNumEntry ++ (le 4 128 ++
    le 4 h.partTableCrc))))

/-- `crc32(0, gpt_h, gpt_h->head_sz)`. -/
def GptHeader.crc (h : GptHeader) : ℕ := (Cksum.crc32 0 h.encode).toNat

/-- `set_gpt_header`. -/
def setGptHeader (d : Dev) (gi : GptInfo) : Option GptHeader :=
  (uidStrToBin uuidDisk false).map fun guid =>
    { headCrc := 0
      gptHeader := 1
      gptBackHeader := sub32 d.blockCount 1
      startLba := gi.gptStartLba / d.numBlkSize
      endLba := gi.gptLastLba / d.numBlkSize
      guid := guid
      partNumEntry := gi.gptEntryCnt
      partTableCrc := 0 }

/-! ### The entries -/

/-- What a `struct gpt_part_table` is filled with. -/
structure GptPart where
  guid : List UInt8
  startLba : ℕ
  endLba : ℕ
  name : List UInt8

/-- The 128 bytes of an entry: attributes of 0, and 16 of 36 characters. -/
def GptPart.encode (e : GptPart) : List UInt8 :=
  basicDataGuid ++ e.guid ++ le 8 e.startLba ++ le 8 e.endLba ++ le 8 0 ++
    e.name.flatMap (fun c => [c, 0]) ++ List.replicate 40 0

/-- The loop of `set_partition_table` from entry `i` on, with `n` entries to go, the used
entries so far and `offset`. -/
def setPartitionTable (d : Dev) (endUseLba : ℕ) (p : PitInfo) :
    ℕ → ℕ → ℕ → List GptPart → Option (List GptPart)
  | 0, _, _, es => some es
  | n + 1, i, offset, es =>
    if (p.pte i).filesys = 0 then setPartitionTable d endUseLba p n (i + 1) offset es
    else
      let start := offset
      let offset := u32 (start + (p.pte i).blknum / d.numBlkSize)
      if offset > endUseLba then none
      else
        match uidStrToBin (exynosUniqueGuid ++ hex2 (es.length + 1)) true with
        | none => none
        | some guid =>
          setPartitionTable d endUseLba p n (i + 1) offset
            (es ++ [⟨guid, start, sub32 offset 1, (p.pte i).text.take 16⟩])

/-- `gpt_e`: 128 entries, zero where unused. -/
def tableBytes (es : List GptPart) : List UInt8 :=
  es.flatMap GptPart.encode ++ List.replicate (16384 - 128 * es.length) 0

/-! ### Writing -/

/-- How the calls of `gpt_create` come out: whether the device is there and memory is, and
what a failing write leaves in the sectors it was to write. -/
structure Env where
  opens : Bool
  alloc : Bool
  write : ℕ → Option (ℕ → UInt8)

/-- `new_write` as call `n`, of a buffer: whether it fails, and the device. -/
def newWrite (env : Env) (n : ℕ) (dev buf : ℕ → UInt8) (sector cnt : ℕ) : Bool × (ℕ → UInt8) :=
  match env.write n with
  | none => (false, copy dev (sector * 512) buf 0 (cnt * 512))
  | some left => (true, copy dev (sector * 512) left 0 (cnt * 512))

/-- A zeroed buffer that starts with `l`. -/
def buffer (l : List UInt8) : ℕ → UInt8 := store (fun _ => 0) 0 l

/-- The protective MBR of `set_protective_mbr`. -/
def protectiveMbr (d : Dev) : ℕ → UInt8 :=
  let b := store (fun _ => 0) 510 (le 2 0xAA55)
  let b := store b 450 (le 1 0xEE)
  store32 (store32 b 454 1) 458 (sub32 (u32 (u32 (d.blockCount + 1) * d.numBlkSize)) 1)

/-- `pte_blk_cnt`. -/
def Dev.pteBlkCnt (d : Dev) : ℕ := (128 * 128 - 1) / (512 * d.numBlkSize + 1) * d.numBlkSize

/-- The header with both checksums: `part_table_crc` over the entries in use. -/
def primaryHeader (h : GptHeader) (es : List GptPart) : GptHeader :=
  let h := { h with partTableCrc :=
    (Cksum.crc32 0 ((tableBytes es).take (u32 (h.partNumEntry * 128)))).toNat }
  { h with headCrc := h.crc }

/-- The second header, made from the first one. -/
def backupHeader (h : GptHeader) : GptHeader :=
  let h := { h with gptHeader := h.gptBackHeader, gptBackHeader := 1 }
  { h with headCrc := h.crc }

/-- `write_gpt_table`, from device call `n` on: whether it fails, and the device. -/
def writeGptTable (d : Dev) (env : Env) (n : ℕ) (dev : ℕ → UInt8) (h : GptHeader)
    (es : List GptPart) : Bool × (ℕ → UInt8) :=
  let r₀ := newWrite env n dev (protectiveMbr d) 0 (1 * d.numBlkSize)
  if r₀.1 then (true, r₀.2)
  else
    let h₁ := primaryHeader h es
    let r₁ := newWrite env (n + 1) r₀.2 (buffer h₁.encode) (1 * d.numBlkSize) (d.numBlkSize * 1)
    if r₁.1 then (true, r₁.2)
    else
      let r₂ := newWrite env (n + 2) r₁.2 (buffer (tableBytes es)) (2 * d.numBlkSize) d.pteBlkCnt
      if r₂.1 then (true, r₂.2)
      else
        let h₂ := backupHeader h₁
        let r₃ := newWrite env (n + 3) r₂.2 (buffer (tableBytes es))
          (u32 ((h₂.endLba + 1) * d.numBlkSize)) d.pteBlkCnt
        if r₃.1 then (true, r₃.2)
        else newWrite env (n + 4) r₃.2 (buffer h₂.encode) (u32 (h₂.gptHeader * d.numBlkSize))
          (d.numBlkSize * 1)

/-- How `gpt_create` ends: with 0, or with -1 before or at a device write. -/
inductive CreateEnd where
  | done
  | rejected
  | deviceError
  deriving DecidableEq

/-- `gpt_create`, its device calls counted from `n` on.  Whatever is allocated is allocated
before the first write. -/
def gptCreate (d : Dev) (env : Env) (n : ℕ) (dev : ℕ → UInt8) (p : PitInfo) (gi : GptInfo) :
    CreateEnd × (ℕ → UInt8) :=
  if ¬ (env.opens ∧ env.alloc) then (.rejected, dev)
  else
    match setGptHeader d gi with
    | none => (.rejected, dev)
    | some h =>
      match setPartitionTable d (u32 h.endLba) p p.count 0 (u32 h.startLba) [] with
      | none => (.rejected, dev)
      | some es =>
        let r := writeGptTable d env n dev h es
        (if r.1 then .deviceError else .done, r.2)

/-! ### Comparing -/

/-- `new_read` into a zeroed buffer of `len` bytes, as the bytes of the buffer. -/
def newRead (dev : ℕ → UInt8) (sector cnt len : ℕ) : List UInt8 :=
  window dev (sector * 512) (cnt * 512) ++ List.replicate (len - cnt * 512) 0

/-- `gpt_compare_chk` on a device that is read without errors: whether it returns 0.  The
headers are compared over `sizeof(struct gpt_header)`. -/
def gptCompareChk (d : Dev) (dev : ℕ → UInt8) (p : PitInfo) (gi : GptInfo) : Bool :=
  match setGptHeader d gi with
  | none => false
  | some h =>
    match setPartitionTable d (u32 h.endLba) p p.count 0 (u32 h.startLba) [] with
    | none => false
    | some es =>
      let h₁ := primaryHeader h es
      let h₂ := backupHeader h₁
      let n := d.numBlkSize
      decide (window (buffer h₁.encode) 0 512 =
          (newRead dev (1 * n) (n * 1) (512 * n)).take 512) &&
        decide (tableBytes es = newRead dev (2 * n) d.pteBlkCnt 16384) &&
        decide (window (buffer h₂.encode) 0 512 =
          (newRead dev (u32 (h₂.gptHeader * n)) (n * 1) (512 * n)).take 512) &&
        decide (tableBytes es = newRead dev (u32 ((h₂.endLba + 1) * n)) d.pteBlkCnt 16384)

/-! ## What the builder makes of the entries -/

/-- How many of the `n` entries from `i` on have a file system. -/
def usedCount (p : PitInfo) : ℕ → ℕ → ℕ
  | 0, _ => 0
  | n + 1, i => (if (p.pte i).filesys = 0 then 0 else 1) + usedCount p n (i + 1)

theorem usedCount_add (p : PitInfo) (n m i : ℕ) :
    usedCount p (n + m) i = usedCount p n i + usedCount p m (i + n) := by
  induction n generalizing i with
  | zero => simp [usedCount]
  | succ n ih =>
    rw [show n + 1 + m = n + m + 1 by omega, usedCount, usedCount, ih (i + 1),
      show i + (n + 1) = i + 1 + n by omega, ← Nat.add_assoc]

variable {p : PitInfo}

theorem usedCount_eq {n i : ℕ} (h : ∀ j < n, (p.pte (i + j)).filesys ≠ 0) :
    usedCount p n i = n := by
  induction n generalizing i with
  | zero => rfl
  | succ n ih =>
    have h₀ : (p.pte i).filesys ≠ 0 := h 0 (by omega)
    have hrest := ih (i := i + 1) fun j hj => by
      rw [show i + 1 + j = i + (j + 1) by omega]
      exact h (j + 1) (by omega)
    rw [usedCount, if_neg h₀, hrest, Nat.add_comm]

@[simp] theorem length_uidStrToBin {uid : List Char} {std : Bool} {guid : List UInt8}
    (h : uidStrToBin uid std = some guid) : guid.length = 16 := by
  unfold uidStrToBin at h
  split_ifs at h <;> obtain rfl := Option.some.inj h <;> simp

/-- An entry that fills its 128 bytes. -/
def GptPart.Whole (e : GptPart) : Prop := e.guid.length = 16 ∧ e.name.length = 16

theorem GptPart.Whole.length {e : GptPart} (h : e.Whole) : e.encode.length = 128 := by
  have hname : (e.name.flatMap fun c => [c, 0]).length = 32 := by
    rw [List.length_flatMap]
    simp [h.2]
  simp only [encode, List.length_append, hname, h.1, length_le, List.length_replicate]
  rfl

variable {h : GptHeader} {dev : ℕ → UInt8} {es : List GptPart} {d : Dev}

/-- **The builder adds one entry for every entry with a file system.** -/
theorem setPartitionTable_length {endUse n i offset : ℕ}
    {es es' : List GptPart} (h : setPartitionTable d endUse p n i offset es = some es')
    (hes : ∀ e ∈ es, e.Whole) :
    es'.length = es.length + usedCount p n i ∧ ∀ e ∈ es', e.Whole := by
  induction n generalizing i offset es with
  | zero =>
    cases h
    exact ⟨rfl, hes⟩
  | succ n ih =>
    rw [setPartitionTable] at h
    rw [usedCount]
    by_cases h₁ : (p.pte i).filesys = 0
    · rw [if_pos h₁] at h
      rw [if_pos h₁, Nat.zero_add]
      exact ih h hes
    rw [if_neg h₁] at h
    dsimp only at h
    split_ifs at h with h₂
    rcases hg : uidStrToBin (exynosUniqueGuid ++ hex2 (es.length + 1)) true with _ | guid
    · rw [hg] at h
      cases h
    rw [hg] at h
    obtain ⟨hlen, hall⟩ := ih h (by
      intro e he
      rcases List.mem_append.1 he with he | he
      · exact hes e he
      · obtain rfl := List.mem_singleton.1 he
        exact ⟨length_uidStrToBin hg, by simp [(p.pte i).text_length]⟩)
    rw [if_neg h₁]
    refine ⟨?_, hall⟩
    rw [hlen, List.length_append, List.length_singleton, Nat.add_assoc]

theorem length_flatMap_encode (h : ∀ e ∈ es, e.Whole) :
    (es.flatMap GptPart.encode).length = 128 * es.length := by
  induction es with
  | nil => rfl
  | cons e es ih =>
    rw [List.flatMap_cons, List.length_append, (h e (by simp)).length,
      ih fun e he => h e (List.mem_cons_of_mem _ he), List.length_cons]
    omega

theorem length_tableBytes (h : ∀ e ∈ es, e.Whole) (hl : es.length ≤ 128) :
    (tableBytes es).length = 16384 := by
  rw [tableBytes, List.length_append, length_flatMap_encode h, List.length_replicate]
  omega

/-! ## What is on the device -/

theorem Dev.pteBlkCnt_eq (d : Dev) : d.pteBlkCnt = if d.ufs then 24 else 31 := by
  unfold Dev.pteBlkCnt Dev.numBlkSize
  split_ifs <;> rfl

variable {env : Env}

theorem newWrite_ok {n sector cnt : ℕ} {dev buf : ℕ → UInt8}
    (h : (newWrite env n dev buf sector cnt).1 = false) :
    (newWrite env n dev buf sector cnt).2 = copy dev (sector * 512) buf 0 (cnt * 512) := by
  unfold newWrite at h ⊢
  cases hw : env.write n with
  | none => rfl
  | some left =>
    rw [hw] at h
    cases h

/-- The bytes from `sector` on are those of a buffer. -/
def Holds (dev : ℕ → UInt8) (sector cnt : ℕ) (buf : ℕ → UInt8) : Prop :=
  ∀ j < cnt * 512, dev (sector * 512 + j) = buf j

theorem holds_copy (dev buf : ℕ → UInt8) (sector cnt : ℕ) :
    Holds (copy dev (sector * 512) buf 0 (cnt * 512)) sector cnt buf := fun j hj => by
  rw [copy_of_mem (by omega) (by omega), Nat.zero_add, Nat.add_sub_cancel_left]

theorem Holds.copy_other {dev buf buf' : ℕ → UInt8} {sector cnt sector' cnt' : ℕ}
    (h : Holds dev sector cnt buf) (hd : sector + cnt ≤ sector' ∨ sector' + cnt' ≤ sector) :
    Holds (copy dev (sector' * 512) buf' 0 (cnt' * 512)) sector cnt buf := fun j hj => by
  rw [copy_of_not_mem (by omega), h j hj]

/-- The sectors of the second table and of the second header. -/
def Dev.backupTable (d : Dev) (h : GptHeader) : ℕ := u32 ((h.endLba + 1) * d.numBlkSize)
def Dev.backupHead (d : Dev) (h : GptHeader) : ℕ := u32 (h.gptBackHeader * d.numBlkSize)

variable {n : ℕ}

/-- **What `write_gpt_table` leaves on the device**, when the second copy lies behind the
first. -/
theorem writeGptTable_done (hdone : (writeGptTable d env n dev h es).1 = false)
    (h₁ : 2 * d.numBlkSize + d.pteBlkCnt ≤ d.backupTable h)
    (h₂ : d.backupTable h + d.pteBlkCnt ≤ d.backupHead h) :
    Holds (writeGptTable d env n dev h es).2 d.numBlkSize d.numBlkSize
        (buffer (primaryHeader h es).encode) ∧
      Holds (writeGptTable d env n dev h es).2 (2 * d.numBlkSize) d.pteBlkCnt
        (buffer (tableBytes es)) ∧
      Holds (writeGptTable d env n dev h es).2 (d.backupTable h) d.pteBlkCnt
        (buffer (tableBytes es)) ∧
      Holds (writeGptTable d env n dev h es).2 (d.backupHead h) d.numBlkSize
        (buffer (backupHeader (primaryHeader h es)).encode) := by
  have hT : u32 (((backupHeader (primaryHeader h es)).endLba + 1) * d.numBlkSize) =
      d.backupTable h := rfl
  have hB : u32 ((backupHeader (primaryHeader h es)).gptHeader * d.numBlkSize) =
      d.backupHead h := rfl
  unfold writeGptTable at hdone ⊢
  dsimp only at hdone ⊢
  rw [hT, hB, Nat.one_mul, Nat.mul_one] at hdone ⊢
  generalize d.backupTable h = T at *
  generalize d.backupHead h = B at *
  split_ifs at hdone ⊢ with hw₀ hw₁ hw₂ hw₃
  rw [Bool.not_eq_true] at hw₀ hw₁ hw₂ hw₃
  rw [newWrite_ok hw₀] at hw₁ hw₂ hw₃ hdone ⊢
  rw [newWrite_ok hw₁] at hw₂ hw₃ hdone ⊢
  rw [newWrite_ok hw₂] at hw₃ hdone ⊢
  rw [newWrite_ok hw₃] at hdone ⊢
  rw [newWrite_ok hdone]
  refine ⟨?_, ?_, ?_, holds_copy _ _ B d.numBlkSize⟩
  · exact (((holds_copy _ _ d.numBlkSize d.numBlkSize).copy_other (by omega)).copy_other
      (by omega)).copy_other (by omega)
  · exact ((holds_copy _ _ (2 * d.numBlkSize) d.pteBlkCnt).copy_other (by omega)).copy_other
      (by omega)
  · exact (holds_copy _ _ T d.pteBlkCnt).copy_other (by omega)

/-! ## Checksums on the device -/

/-- `head_crc` of the header at `hd` is the checksum of its `head_sz` bytes with the field
taken as zero. -/
def HeadSound (dev : ℕ → UInt8) (hd : ℕ) : Prop :=
  load32 dev (hd + 16) =
    (Cksum.crc32 0 (window (store32 dev (hd + 16) 0) hd (load32 dev (hd + 12)))).toNat

/-- `part_table_crc` of the header at `hd` is the checksum of the entries it describes, which
are stored at `tb`. -/
def TableSound (dev : ℕ → UInt8) (hd tb : ℕ) : Prop :=
  load32 dev (hd + 88) =
    (Cksum.crc32 0 (window dev tb (load32 dev (hd + 80) * load32 dev (hd + 84)))).toNat

theorem length_headFront : headFront.length = 16 := by simp [headFront]

theorem GptHeader.length_middle (hg : h.guid.length = 16) :
    h.middle.length = 60 := by
  simp only [middle, List.length_append, length_le, hg]

theorem GptHeader.length_encode (hg : h.guid.length = 16) :
    h.encode.length = 92 := by
  simp only [encode, List.length_append, length_headFront, length_middle hg, length_le]

/-- The fields of a stored header. -/
structure Stored (dev : ℕ → UInt8) (hd : ℕ) (h : GptHeader) : Prop where
  front : window dev hd 16 = headFront
  crc : window dev (hd + 16) 4 = le 4 h.headCrc
  rest : window dev (hd + 20) 72 =
    h.middle ++ (le 4 h.partNumEntry ++ (le 4 128 ++ le 4 h.partTableCrc))
  num : window dev (hd + 80) 4 = le 4 h.partNumEntry
  size : window dev (hd + 84) 4 = le 4 128
  table : window dev (hd + 88) 4 = le 4 h.partTableCrc

theorem stored_of_window {hd : ℕ} (hg : h.guid.length = 16)
    (hw : window dev hd 92 = h.encode) : Stored dev hd h := by
  rw [← GptHeader.length_encode hg, GptHeader.encode] at hw
  obtain ⟨h₁, hw⟩ := window_eq_append.1 hw
  rw [length_headFront] at h₁ hw
  obtain ⟨h₂, hw⟩ := window_eq_append.1 hw
  rw [length_le] at h₂ hw
  have h₃ := hw
  obtain ⟨-, hw⟩ := window_eq_append.1 hw
  rw [GptHeader.length_middle hg] at hw
  obtain ⟨h₄, hw⟩ := window_eq_append.1 hw
  obtain ⟨h₅, h₆⟩ := window_eq_append.1 hw
  simp only [List.length_append, length_le, GptHeader.length_middle hg, Nat.add_assoc,
    Nat.reduceAdd] at h₂ h₃ h₄ h₅ h₆
  exact ⟨h₁, h₂, h₃, h₄, h₅, h₆⟩

/-- The stored header with its checksum taken as zero. -/
theorem Stored.zeroed {hd : ℕ} (hs : Stored dev hd h) :
    load32 dev (hd + 12) = 92 ∧
      window (store32 dev (hd + 16) 0) hd 92 = { h with headCrc := 0 }.encode := by
  have hsize : window dev (hd + 12) 4 = le 4 92 := by
    have := hs.front
    rw [headFront, show (16 : ℕ) = (le 8 0x5452415020494645 ++ le 4 0x00010000 ++ le 4 92).length by
      simp] at this
    have hw := (window_eq_append.1 this).2
    simpa only [List.length_append, length_le, Nat.reduceAdd] using hw
  refine ⟨load32_of_window hsize (by norm_num), ?_⟩
  have hfront : window (store32 dev (hd + 16) 0) hd 16 = headFront := by
    rw [← hs.front]
    exact window_congr fun j hj => store32_of_not_mem (by omega)
  have hzero : window (store32 dev (hd + 16) 0) (hd + 16) 4 = le 4 0 := by
    have := window_store dev (hd + 16) [] (le 4 0) []
    simp only [List.nil_append, List.append_nil, List.length_nil, Nat.add_zero, length_le] at this
    exact this
  have hrest : window (store32 dev (hd + 16) 0) (hd + 20) 72 =
      h.middle ++ (le 4 h.partNumEntry ++ (le 4 128 ++ le 4 h.partTableCrc)) := by
    rw [← hs.rest]
    exact window_congr fun j hj => store32_of_not_mem (by omega)
  rw [show (92 : ℕ) = 16 + (4 + 72) by rfl, window_add, window_add, hfront, hzero, hrest]
  rfl

/-- A stored header is sound when its checksum was taken with the field zero. -/
theorem Stored.headSound_iff {hd : ℕ} (hs : Stored dev hd h)
    (hlt : h.headCrc < 2 ^ 32) : HeadSound dev hd ↔ h.headCrc = { h with headCrc := 0 }.crc := by
  obtain ⟨hsize, hzero⟩ := hs.zeroed
  rw [HeadSound, hsize, hzero, load32_of_window hs.crc hlt]
  rfl

/-- The checksum of a header is that of the header with its field zero only where the field
is zero. -/
theorem GptHeader.crc_eq_zeroed_iff (hlt : h.headCrc < 2 ^ 32) :
    h.crc = { h with headCrc := 0 }.crc ↔ h.headCrc = 0 := by
  constructor
  · intro hcrc
    have hle : le 4 h.headCrc = le 4 0 :=
      Cksum.crc32_field_injective (length_le _ _) (length_le _ _) (UInt32.toNat_inj.1 hcrc)
    have hval := congrArg ofLe hle
    rwa [ofLe_le_of_lt (by simpa using hlt), ofLe_le_of_lt (by norm_num)] at hval
  · intro hcrc
    cases h
    subst hcrc
    rfl

/-! ## Reading back -/

theorem Holds.window {dev buf : ℕ → UInt8} {sector cnt n : ℕ} (h : Holds dev sector cnt buf)
    (hn : n ≤ cnt * 512) : Memory.window dev (sector * 512) n = Memory.window buf 0 n :=
  window_congr fun i hi => by rw [h i (by omega), Nat.zero_add]

/-- A buffer holds the list it was made of. -/
theorem window_buffer {l : List UInt8} (hn : n ≤ l.length) :
    window (buffer l) 0 n = l.take n := by
  have hall : window (buffer l) 0 l.length = l := by
    simpa [buffer] using window_store (fun _ => 0) 0 [] l []
  rw [← take_window (buffer l) 0 hn, hall]

/-- **A table that was written is read back** where no entry in use lies past the blocks that
were. -/
theorem newRead_table_iff {sector : ℕ} (hw : ∀ e ∈ es, e.Whole) (hl : es.length ≤ 128)
    (h : Holds dev sector d.pteBlkCnt (buffer (tableBytes es))) :
    tableBytes es = newRead dev sector d.pteBlkCnt 16384 ↔ es.length ≤ 4 * d.pteBlkCnt := by
  have hcap : d.pteBlkCnt * 512 ≤ 16384 := by
    rw [Dev.pteBlkCnt_eq]
    split_ifs <;> omega
  rw [newRead, h.window (Nat.le_refl _), window_buffer (by rw [length_tableBytes hw hl]; exact hcap)]
  generalize hm : d.pteBlkCnt * 512 = m at hcap
  -- the two agree when what was not written is zero
  have hdrop : tableBytes es = (tableBytes es).take m ++ List.replicate (16384 - m) 0 ↔
      (tableBytes es).drop m = List.replicate (16384 - m) 0 := by
    nth_rewrite 1 [← List.take_append_drop m (tableBytes es)]
    exact List.append_right_inj _
  rw [hdrop]
  constructor
  · intro hzero
    by_contra hlong
    obtain ⟨c, hc⟩ : ∃ c, es.length = 4 * d.pteBlkCnt + (c + 1) :=
      ⟨es.length - 4 * d.pteBlkCnt - 1, by omega⟩
    have hfront : (es.take (4 * d.pteBlkCnt)).length = 4 * d.pteBlkCnt := by
      rw [List.length_take]
      omega
    rcases hrest : es.drop (4 * d.pteBlkCnt) with _ | ⟨e, es'⟩
    · have := congrArg List.length hrest
      rw [List.length_drop, List.length_nil] at this
      omega
    have hbytes : (tableBytes es).drop m = e.encode ++ (es'.flatMap GptPart.encode ++
        List.replicate (16384 - 128 * es.length) 0) := by
      rw [tableBytes, ← List.take_append_drop (4 * d.pteBlkCnt) es, hrest, List.flatMap_append,
        List.flatMap_cons, List.append_assoc, List.append_assoc]
      refine List.drop_left' ?_
      rw [length_flatMap_encode fun e he => hw e (List.mem_of_mem_take he), hfront]
      omega
    rw [hbytes] at hzero
    have hhead := congrArg List.head? hzero
    rw [show 16384 - m = 16384 - m - 1 + 1 by omega, List.replicate_succ] at hhead
    exact absurd (Option.some.inj hhead) (by decide)
  · intro hshort
    rw [tableBytes, List.drop_append, length_flatMap_encode hw, List.drop_eq_nil_of_le (by
      rw [length_flatMap_encode hw]
      omega), List.nil_append, List.drop_replicate]
    congr 1
    omega

theorem newRead_head {dev buf : ℕ → UInt8} {sector n : ℕ} (h : Holds dev sector n buf)
    (hn : 1 ≤ n) : (newRead dev sector n (512 * n)).take 512 = window buf 0 512 := by
  rw [newRead, h.window (Nat.le_refl _), show 512 * n - n * 512 = 0 by omega,
    List.replicate_zero, List.append_nil, take_window _ _ (by omega)]

theorem Holds.stored {sector n : ℕ}
    (hd : Holds dev sector n (buffer h.encode)) (hg : h.guid.length = 16) (hn : 1 ≤ n) :
    Stored dev (sector * 512) h := by
  have hlen := GptHeader.length_encode hg
  refine stored_of_window hg ?_
  rw [hd.window (by omega), window_buffer (by omega), ← hlen, List.take_length]

/-- **The table checksum is that of the entries that lie there**, where they were all
written. -/
theorem Stored.tableSound {hd sector : ℕ} (hs : Stored dev hd h)
    (ht : Holds dev sector d.pteBlkCnt (buffer (tableBytes es))) (hw : ∀ e ∈ es, e.Whole)
    (hl : es.length ≤ 128) (hnum : h.partNumEntry ≤ 4 * d.pteBlkCnt) (hcap : d.pteBlkCnt ≤ 32)
    (hcrc : h.partTableCrc =
      (Cksum.crc32 0 ((tableBytes es).take (u32 (h.partNumEntry * 128)))).toNat) :
    TableSound dev hd (sector * 512) := by
  have hlt : h.partTableCrc < 2 ^ 32 := by
    rw [hcrc]
    exact UInt32.toNat_lt _
  rw [TableSound, load32_of_window hs.table hlt, load32_of_window hs.num (by omega),
    load32_of_window hs.size (by norm_num), ht.window (by omega),
    window_buffer (by rw [length_tableBytes hw hl]; omega), hcrc, u32_of_lt (by omega)]

/-! ## The round trip -/

variable {gi : GptInfo}

/-- What `set_gpt_header` gives. -/
theorem setGptHeader_spec (hh : setGptHeader d gi = some h) :
    h.headCrc = 0 ∧ h.guid.length = 16 ∧ h.partNumEntry = gi.gptEntryCnt ∧
      h.startLba = gi.gptStartLba / d.numBlkSize ∧ h.endLba = gi.gptLastLba / d.numBlkSize ∧
      h.gptBackHeader = sub32 d.blockCount 1 := by
  unfold setGptHeader at hh
  obtain ⟨guid, hguid, rfl⟩ := Option.map_eq_some_iff.1 hh
  exact ⟨rfl, length_uidStrToBin hguid, rfl, rfl, rfl, rfl⟩

/-- The second table lies behind the last usable block, in front of the second header in the
last block. -/
theorem backup_bounds (hgi : gi.gptLastLba = d.pitGetLastLba) (hh : setGptHeader d gi = some h) :
    2 * d.numBlkSize + d.pteBlkCnt ≤ d.backupTable h ∧
      d.backupTable h + d.pteBlkCnt ≤ d.backupHead h ∧
      d.backupHead h = d.sectors - d.numBlkSize := by
  obtain ⟨-, -, -, -, hend, hback⟩ := setGptHeader_spec hh
  obtain ⟨hlt, hge, hsec⟩ := d.sectors_bounds
  have hpte := d.pteBlkCnt_eq
  rw [hgi, d.pitGetLastLba_eq] at hend
  rw [Dev.backupTable, Dev.backupHead, hend, hback]
  unfold Dev.numBlkSize at *
  split_ifs at * with hufs
  · have hsub : sub32 d.blockCount 1 = d.blockCount - 1 := sub32_of_le (by omega) (by omega)
    rw [hsub, u32_of_lt (by omega), u32_of_lt (by omega)]
    omega
  · have hsub : sub32 d.blockCount 1 = d.blockCount - 1 := sub32_of_le (by omega) (by omega)
    rw [hsub, u32_of_lt (by omega), u32_of_lt (by omega)]
    omega

/-- What `gpt_create` promises to who reads the device: the comparison succeeds, and both
headers carry the checksums of themselves and of the entries stored with them. -/
structure RoundTrip (d : Dev) (dev : ℕ → UInt8) (p : PitInfo) (gi : GptInfo) : Prop where
  compare : gptCompareChk d dev p gi = true
  head : HeadSound dev (d.numBlkSize * 512)
  table : TableSound dev (d.numBlkSize * 512) (2 * d.numBlkSize * 512)
  backupHead : HeadSound dev ((d.sectors - d.numBlkSize) * 512)
  backupTable : TableSound dev ((d.sectors - d.numBlkSize) * 512)
    (u32 ((gi.gptLastLba / d.numBlkSize + 1) * d.numBlkSize) * 512)

/-- The first header over a layout with its table checksum, its `head_crc` still zero. -/
def firstHeader (d : Dev) (p : PitInfo) (gi : GptInfo) : Option GptHeader :=
  (setGptHeader d gi).bind fun h =>
    (setPartitionTable d (u32 h.endLba) p p.count 0 (u32 h.startLba) []).map fun es =>
      { primaryHeader h es with headCrc := 0 }

/-- `gpt_create` returned 0: the header and the entries were built, and written. -/
theorem gptCreate_done {dev dev' : ℕ → UInt8} (hdone : gptCreate d env n dev p gi = (.done, dev')) :
    ∃ h es, setGptHeader d gi = some h ∧
      setPartitionTable d (u32 h.endLba) p p.count 0 (u32 h.startLba) [] = some es ∧
      writeGptTable d env n dev h es = (false, dev') := by
  unfold gptCreate at hdone
  by_cases hopen : ¬ (env.opens ∧ env.alloc)
  · rw [if_pos hopen] at hdone
    cases hdone
  rw [if_neg hopen] at hdone
  rcases hh : setGptHeader d gi with _ | h
  · rw [hh] at hdone
    cases hdone
  rw [hh] at hdone
  dsimp only at hdone
  rcases hes : setPartitionTable d (u32 h.endLba) p p.count 0 (u32 h.startLba) [] with _ | es
  · rw [hes] at hdone
    cases hdone
  rw [hes] at hdone
  dsimp only at hdone
  obtain ⟨hend, hdev⟩ := Prod.mk.inj hdone
  refine ⟨h, es, rfl, hes, Prod.ext ?_ hdev⟩
  by_contra hfail
  rw [if_pos (by simpa using hfail)] at hend
  cases hend

/-- Every GPT partition of the layout has a file system. -/
theorem Accepted.le_usedCount {p p' : PitInfo} {a k : ℕ} {r : Option ℕ}
    (h : Accepted d p p' gi a k r) : k ≤ usedCount p' p'.count 0 := by
  have hk : usedCount p' k a = k := usedCount_eq fun j hj => by
    rw [h.filesys]
    rcases (h.gpts j hj).2.1 with hg | hg | hg <;> rw [hg] <;> decide
  obtain ⟨rest, hrest⟩ := Nat.exists_eq_add_of_le h.le_count
  rw [h.count, hrest, usedCount_add, usedCount_add, Nat.zero_add, hk]
  omega

/-- The tables that were written are read back when the entries fit in the blocks for them and the
checksum of the header is 0. -/
theorem writeGptTable_roundTrip_iff {dev dev' : ℕ → UInt8}
    (hgi : gi.gptLastLba = d.pitGetLastLba) (hcnt : gi.gptEntryCnt ≤ es.length)
    (hl : es.length ≤ 128) (hw : ∀ e ∈ es, e.Whole) (hh : setGptHeader d gi = some h)
    (hes : setPartitionTable d (u32 h.endLba) p p.count 0 (u32 h.startLba) [] = some es)
    (hdone : writeGptTable d env n dev h es = (false, dev')) :
    RoundTrip d dev' p gi ↔ es.length ≤ 4 * d.pteBlkCnt ∧ (primaryHeader h es).headCrc = 0 := by
  obtain ⟨hb₁, hb₂, hb₃⟩ := backup_bounds hgi hh
  obtain ⟨hcrc, hguid, hnum, -, hend, -⟩ := setGptHeader_spec hh
  obtain ⟨hP, hPT, hBT, hB⟩ := writeGptTable_done (congrArg Prod.fst hdone) hb₁ hb₂
  rw [congrArg Prod.snd hdone] at hP hPT hBT hB
  have hN : 1 ≤ d.numBlkSize := by rcases d.numBlkSize_cases with h | h <;> omega
  have hcap : d.pteBlkCnt ≤ 32 := by
    rw [d.pteBlkCnt_eq]
    split_ifs <;> omega
  have hlt : (primaryHeader h es).headCrc < 2 ^ 32 := UInt32.toNat_lt _
  have hlt' : (backupHeader (primaryHeader h es)).headCrc < 2 ^ 32 := UInt32.toNat_lt _
  have hsP : Stored dev' (d.numBlkSize * 512) (primaryHeader h es) := hP.stored hguid hN
  have hsB := hB.stored (h := backupHeader (primaryHeader h es)) hguid hN
  rw [hb₃] at hsB
  -- the header that the second one is the checksum of
  have hback : HeadSound dev' ((d.sectors - d.numBlkSize) * 512) ↔
      (primaryHeader h es).headCrc = 0 := by
    rw [hsB.headSound_iff hlt']
    exact GptHeader.crc_eq_zeroed_iff
      (h := { primaryHeader h es with gptHeader := h.gptBackHeader, gptBackHeader := 1 }) hlt
  have hcompare : gptCompareChk d dev' p gi = true ↔ es.length ≤ 4 * d.pteBlkCnt := by
    have hT : u32 (((backupHeader (primaryHeader h es)).endLba + 1) * d.numBlkSize) =
        d.backupTable h := rfl
    have hH : u32 ((backupHeader (primaryHeader h es)).gptHeader * d.numBlkSize) =
        d.backupHead h := rfl
    simp only [gptCompareChk, hh, hes, hT, hH, Nat.one_mul, Nat.mul_one, Bool.and_eq_true,
      decide_eq_true_eq, newRead_head hP hN, newRead_head hB hN, true_and, and_true,
      newRead_table_iff hw hl hPT, newRead_table_iff hw hl hBT, and_self]
  constructor
  · intro hr
    exact ⟨hcompare.1 hr.compare, hback.1 hr.backupHead⟩
  · rintro ⟨hshort, hzero⟩
    have hk : (primaryHeader h es).partNumEntry ≤ 4 * d.pteBlkCnt := by
      show h.partNumEntry ≤ _
      omega
    refine ⟨hcompare.2 hshort, ?_, ?_, hback.2 hzero, ?_⟩
    · rw [hsP.headSound_iff hlt]
      show (GptHeader.crc _) = GptHeader.crc _
      rw [hcrc]
      rfl
    · exact hsP.tableSound hPT hw hl hk hcap rfl
    · rw [show u32 ((gi.gptLastLba / d.numBlkSize + 1) * d.numBlkSize) = d.backupTable h by
        rw [Dev.backupTable, hend]]
      exact hsB.tableSound hBT hw hl hk hcap rfl

theorem Accepted.roundTrip_iff {dev dev' : ℕ → UInt8}
    {p₀ p : PitInfo} {a k : ℕ} {r : Option ℕ} (hacc : Accepted d p₀ p gi a k r)
    (hcap : usedCount p p.count 0 ≤ 128) (hdone : gptCreate d env n dev p gi = (.done, dev')) :
    RoundTrip d dev' p gi ↔ usedCount p p.count 0 ≤ 4 * d.pteBlkCnt ∧
      (firstHeader d p gi).map GptHeader.crc = some 0 := by
  obtain ⟨h, es, hh, hes, hwrite⟩ := gptCreate_done hdone
  obtain ⟨hlen, hw⟩ := setPartitionTable_length hes (by simp)
  rw [List.length_nil, Nat.zero_add] at hlen
  have hcnt : gi.gptEntryCnt ≤ es.length := by
    rw [hlen, hacc.cnt]
    exact hacc.le_usedCount
  rw [writeGptTable_roundTrip_iff hacc.last hcnt (by omega) hw hh hes hwrite, hlen]
  simp only [firstHeader, hh, hes, Option.bind_some, Option.map_some, Option.some.injEq]
  have hzero : { primaryHeader h es with headCrc := 0 }.crc = (primaryHeader h es).headCrc := by
    show GptHeader.crc _ = GptHeader.crc _
    rw [← (setGptHeader_spec hh).1]
    rfl
  rw [hzero]

/-- **Where the round trip holds.**  For every layout that was accepted, with no more entries
than the table has: after a `gpt_create` that returned 0 the comparison succeeds and all four
checksums are right exactly when the entries fit the blocks that are written and the checksum of
the first header is zero.  The second header is always completed over the checksum of the
first. -/
theorem gptCreate_roundTrip_iff {check : PitInfo → GptInfo → Bool} {env : Env} {n : ℕ}
    {dev dev' : ℕ → UInt8} {p₀ p : PitInfo} {gi₀ gi : GptInfo}
    (hlay : pitLbaCumulation d check p₀ gi₀ = (p, gi, true)) (hcap : usedCount p p.count 0 ≤ 128)
    (hdone : gptCreate d env n dev p gi = (.done, dev')) :
    RoundTrip d dev' p gi ↔ usedCount p p.count 0 ≤ 4 * d.pteBlkCnt ∧
      (firstHeader d p gi).map GptHeader.crc = some 0 := by
  obtain ⟨a, k, r, hacc⟩ := pitLbaCumulation_spec hlay
  exact hacc.roundTrip_iff hcap hdone

/-! ### One partition on a small device -/

/-- An MMC device of 64 MiB. -/
def smallMmc : Dev where
  ufs := false
  blockCount := 131072
  sectors_lt := by decide
  room := by decide

/-- The name "pit", or one with which the checksum of the first header happens to be zero. -/
def oneName (lucky : Bool) : List UInt8 :=
  if lucky then [112, 105, 116, 95, 108, 100, 109, 108, 104, 97, 106, 103, 106, 0, 0, 0]
  else [112, 105, 116] ++ List.replicate 13 0

/-- A GPT partition of 8 sectors with that name, and nothing else. -/
def onePartition (lucky : Bool) : PitInfo where
  magic := pitMagic
  count := 1
  pte _ :=
    { filesys := 1
      blkstart := 0
      blknum := 8
      lun := 0
      text := oneName lucky ++ List.replicate 220 0
      text_length := by cases lucky <;> rw [List.length_append, List.length_replicate] <;> rfl }

/-- Its layout. -/
def oneLayout (lucky : Bool) : PitInfo × GptInfo × Bool :=
  pitLbaCumulation smallMmc (fun _ _ => false) (onePartition lucky) ⟨0, 0, 0⟩

/-- Calls that all succeed. -/
def Env.quiet : Env := ⟨true, true, fun _ => none⟩

/-- The header and the entry that are written. -/
def oneHeader : GptHeader where
  headCrc := 0
  gptHeader := 1
  gptBackHeader := 131071
  startLba := 65536
  endLba := 131024
  guid := [0x78, 0x56, 0x34, 0x12, 0x34, 0x12, 0x34, 0x12, 0x12, 0x34, 0x12, 0x34, 0x56, 0x78,
    0x90, 0x12]
  partNumEntry := 1
  partTableCrc := 0

def oneEntry (lucky : Bool) : GptPart where
  guid := [0x45, 0x58, 0x59, 0x4e, 0x4f, 0x53, 0x53, 0x4c, 0x73, 0x69, 0x50, 0x41, 0x52, 0x54,
    0x3d, 0x01]
  startLba := 65536
  endLba := 65543
  name := oneName lucky

variable (lucky : Bool)

theorem onePartition_header : setGptHeader smallMmc (oneLayout lucky).2.1 = some oneHeader := by
  cases lucky <;> rfl

theorem onePartition_entries :
    setPartitionTable smallMmc (u32 oneHeader.endLba) (oneLayout lucky).1 (oneLayout lucky).1.count 0
      (u32 oneHeader.startLba) [] = some [oneEntry lucky] := by
  cases lucky <;> rfl

theorem oneLayout_eq : pitLbaCumulation smallMmc (fun _ _ => false) (onePartition lucky) ⟨0, 0, 0⟩ =
    ((oneLayout lucky).1, (oneLayout lucky).2.1, true) :=
  Prod.ext rfl (Prod.ext rfl (by cases lucky <;> rfl : (oneLayout lucky).2.2 = true))

theorem oneLayout_used : usedCount (oneLayout lucky).1 (oneLayout lucky).1.count 0 = 1 := by
  cases lucky <;> rfl

/-- The device behind `gpt_create` with it. -/
def oneCreated : ℕ → UInt8 :=
  (writeGptTable smallMmc .quiet 0 (fun _ => 0) oneHeader [oneEntry lucky]).2

theorem oneCreated_eq : gptCreate smallMmc .quiet 0 (fun _ => 0) (oneLayout lucky).1
    (oneLayout lucky).2.1 = (.done, oneCreated lucky) := by
  simp only [gptCreate, onePartition_header, onePartition_entries]
  rfl

theorem oneEntry_crc :
    Cksum.crc32 0 (oneEntry lucky).encode = if lucky then 2581998404 else 458135750 := by
  have h₁ : Cksum.crc32 0 ((oneEntry lucky).encode.take 32) = 2213312111 := by
    cases lucky <;> decide +kernel
  have h₂ : Cksum.crc32 2213312111 (((oneEntry lucky).encode.drop 32).take 32) =
      if lucky then 3295027614 else 4182073349 := by cases lucky <;> decide +kernel
  have h₃ : Cksum.crc32 (if lucky then 3295027614 else 4182073349)
      ((((oneEntry lucky).encode.drop 32).drop 32).take 32) =
      if lucky then 2916750847 else 1120680286 := by cases lucky <;> decide +kernel
  rw [Cksum.crc32_take_drop _ _ 32, h₁, Cksum.crc32_take_drop _ _ 32, h₂,
    Cksum.crc32_take_drop _ _ 32, h₃]
  cases lucky <;> decide +kernel

theorem oneHeader_crc :
    { oneHeader with partTableCrc := if lucky then 2581998404 else 458135750 }.crc =
      if lucky then 0 else 3844139540 := by
  have h₁ : Cksum.crc32 0 ({ oneHeader with
      partTableCrc := if lucky then 2581998404 else 458135750 }.encode.take 32) = 192960956 := by
    cases lucky <;> decide +kernel
  have h₂ : Cksum.crc32 192960956 (({ oneHeader with
      partTableCrc := if lucky then 2581998404 else 458135750 }.encode.drop 32).take 32) =
      209214699 := by cases lucky <;> decide +kernel
  rw [GptHeader.crc, Cksum.crc32_take_drop _ _ 32, h₁, Cksum.crc32_take_drop _ _ 32, h₂]
  cases lucky <;> decide +kernel

/-- The checksum of the first header that `gpt_create` writes. -/
theorem oneLayout_firstHeader :
    (firstHeader smallMmc (oneLayout lucky).1 (oneLayout lucky).2.1).map GptHeader.crc =
      some (if lucky then 0 else 3844139540) := by
  have hwhole : (oneEntry lucky).Whole := ⟨rfl, by cases lucky <;> rfl⟩
  have htable : (tableBytes [oneEntry lucky]).take (u32 (1 * 128)) = (oneEntry lucky).encode := by
    rw [tableBytes, List.flatMap_singleton]
    exact List.take_left' hwhole.length
  have hcrc : (if lucky then 2581998404 else 458135750 : UInt32).toNat =
      if lucky then 2581998404 else 458135750 := by cases lucky <;> rfl
  simp only [firstHeader, onePartition_header, onePartition_entries, Option.bind_some,
    Option.map_some, primaryHeader]
  rw [show oneHeader.partNumEntry = 1 by rfl, htable, oneEntry_crc, hcrc]
  exact congrArg some (oneHeader_crc lucky)

/-- The header that checks out: its checksum over the bytes with the field zero is 0, so filling it
in changes nothing. -/
theorem gptCreate_roundTrip_iff_onePartition :
    RoundTrip smallMmc (oneCreated true) (oneLayout true).1 (oneLayout true).2.1 :=
  (gptCreate_roundTrip_iff (oneLayout_eq _) (by rw [oneLayout_used]; decide) (oneCreated_eq _)).2
    ⟨by rw [oneLayout_used]; decide, oneLayout_firstHeader true⟩

/-- The second header over one partition does not carry its own checksum. -/
theorem gptCreate_backup_unsound :
    ¬ ∀ (d : Dev) (check : PitInfo → GptInfo → Bool) (env : Env) (n : ℕ) (dev dev' : ℕ → UInt8)
      (p₀ p : PitInfo) (gi₀ gi : GptInfo),
      pitLbaCumulation d check p₀ gi₀ = (p, gi, true) → usedCount p p.count 0 ≤ 128 →
        gptCreate d env n dev p gi = (.done, dev') → RoundTrip d dev' p gi := by
  intro h
  have hused : usedCount (oneLayout false).1 (oneLayout false).1.count 0 ≤ 128 :=
    by rw [oneLayout_used]; decide
  have hr := h _ _ _ _ _ _ _ _ _ _ (oneLayout_eq false) hused (oneCreated_eq _)
  obtain ⟨a, k, r, hacc⟩ := pitLbaCumulation_spec (oneLayout_eq false)
  have hzero := ((hacc.roundTrip_iff hused (oneCreated_eq _)).1 hr).2
  rw [oneLayout_firstHeader] at hzero
  exact absurd (Option.some.inj hzero) (by norm_num)

end Pit
end LittleKernel
