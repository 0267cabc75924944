/-
# Loading and updating the GPTs

`lib/gpt/gpt.c`: `gpt_complete_undecisable_info`, `gpt_build_entry_table_cache`,
`gpt_verify`, `gpt_init` and `gpt_update`.

`CHUNK_SIZE_IN_BYTES` and `s_chunk_size` are 20480, `SIGN_SIZE_IN_BYTES` is 4096 and
`bdata` has 86016 bytes.  The tables lie behind the protective MBR: the GPT of LU #0, a second copy of it as it
was downloaded, the GPTs of LU #1 and LU #2, and a signature, in chunks of 20 KiB.
`bdata` holds the same bytes in memory.

| offset | chunk |
| ---: | --- |
| 0 | GPT #0, which the OS reads |
| 20480 | GPT #0 backup |
| 40960 | GPT #1 |
| 61440 | GPT #2 |
| 81920 | verification code |

What depends on the device (the end of the last partition of LU #0, the place of the
alternate header, the last usable block, the checksums) is completed in place on the
backup chunk.  `gpt_update` then copies the result to GPT #0 and the downloaded bytes
back to the backup; `gpt_verify` completes the backup it has loaded and compares.
A table whose header sends the code out of `bdata` or of the entry cache has no defined
outcome: `none`.
-/

import LittleKernel.Gpt.Access
import LittleKernel.Lib.Fields
import LittleKernel.Cksum

namespace LittleKernel
namespace Gpt

open Memory Word Bytes

/-- `START_IN_BYTES_LU_ZERO`. -/
def startInBytesLuZero : ℕ := 512 * 1024

/-- `GPT_ENTRY_NUMBERS * DEF_NUM_OF_LU`, the length of `part_entry`. -/
def cacheSize : ℕ := 384

/-- The device of LU #0: beside the block size its number of blocks, a `bnum_t`.  Its
usable area starts at `START_IN_BYTES_LU_ZERO`, and every device reaches past it. -/
structure Disk extends Manager where
  blockCount : ℕ
  count_lt : blockCount < 2 ^ 32
  room : startInBytesLuZero + 20480 ≤ blockCount * blockInBytes

/-- `s_last_in_blks`. -/
def Disk.lastInBlks (d : Disk) : ℕ := d.blockCount - 1

/-! ### Headers and entries in memory -/

/-- `gpt_h->signature`, `head_sz`, `gpt_header`, `gpt_back_header`, `part_num_entry` and
`part_size_entry` of the header at `base`. -/
def headSignature (b : ℕ → UInt8) (base : ℕ) : ℕ := load64 b base
def headSz (b : ℕ → UInt8) (base : ℕ) : ℕ := load32 b (base + 12)
def headGptHeader (b : ℕ → UInt8) (base : ℕ) : ℕ := load64 b (base + 24)
def headGptBackHeader (b : ℕ → UInt8) (base : ℕ) : ℕ := load64 b (base + 32)
def headPartNumEntry (b : ℕ → UInt8) (base : ℕ) : ℕ := load32 b (base + 80)
def headPartSizeEntry (b : ℕ → UInt8) (base : ℕ) : ℕ := load32 b (base + 84)

/-- `gpt_is_valid`. -/
def gptIsValid (b : ℕ → UInt8) (base : ℕ) : Prop := headSignature b base = gptHeaderSignature

instance (b : ℕ → UInt8) (base : ℕ) : Decidable (gptIsValid b base) :=
  inferInstanceAs (Decidable (_ = _))

/-- Where entry `k` of the table at `base` starts. -/
def Manager.entryAt (m : Manager) (base k : ℕ) : ℕ := base + m.blockInBytes + 128 * k

/-- `gpt_e->part_start_lba` and `part_end_lba`. -/
def entryStart (b : ℕ → UInt8) (e : ℕ) : ℕ := load64 b (e + 32)
def entryEnd (b : ℕ → UInt8) (e : ℕ) : ℕ := load64 b (e + 40)

/-- `gpt_e->part_name` as characters: the low bytes of its 36 `u16`. -/
def entryName (b : ℕ → UInt8) (e : ℕ) : List UInt8 :=
  (List.range 36).map fun j => b (e + 56 + 2 * j)

/-- The name "userdata". -/
def userdata : CString := ⟨[117, 115, 101, 114, 100, 97, 116, 97], by decide⟩

/-! ### Completing the table of LU #0 -/

/-- `ROUNDUP(a, s_block_in_bytes)`: the mask is a `u32`. -/
def roundup32 (a b : ℕ) : ℕ := u64 (a + (b - 1)) &&& (2 ^ 32 - 1 - (b - 1))

/-- Why a step of an update does not go on. -/
inductive Stop where
  | rejected
  | overrun
  deriving DecidableEq

/-- `gpt_get_last_gpt_entry`; of an empty table this is 128 bytes before entry 0. -/
def Manager.gptGetLastGptEntry (m : Manager) (b : ℕ → UInt8) (base : ℕ) : ℕ :=
  m.entryAt base (headPartNumEntry b base) - 128

/-- `rsvd_in_blks`: the alternate table and, behind "userdata", the FMP keys. -/
def Manager.rsvdInBlks (m : Manager) (b : ℕ → UInt8) (e : ℕ) : ℕ :=
  roundup32 (roundup32 20480 m.blockInBytes) m.blockInBytes / m.blockInBytes +
    if CString.ofBytes (entryName b e) = userdata then
      roundup32 (40 * 512) m.blockInBytes / m.blockInBytes else 0

/-- `part_in_blks`, which keeps 32 bits of a 64-bit difference. -/
def Disk.partInBlks (d : Disk) (start : ℕ) : ℕ := u32 (sub64 (u32 (d.lastInBlks + 1)) start)

/-- The header fields that depend on the device, of the table at `base`. -/
def Disk.completeHeader (d : Disk) (b : ℕ → UInt8) (base : ℕ) : ℕ → UInt8 :=
  let b := store64 b (base + 32) d.lastInBlks
  let gptInBytes :=
    roundup32 (d.blockInBytes + 128 * headPartSizeEntry b base) d.blockInBytes
  store64 b (base + 48) (sub64 d.lastInBlks (gptInBytes / d.blockInBytes))

/-- The bytes under `part_table_crc`. -/
def tableBytes (b : ℕ → UInt8) (base : ℕ) : ℕ :=
  u32 (headPartNumEntry b base * headPartSizeEntry b base)

/-- `part_table_crc` and `head_crc` of the table at `base`. -/
def Manager.completeCrcs (m : Manager) (b : ℕ → UInt8) (base : ℕ) : ℕ → UInt8 :=
  let crc := Cksum.crc32 0 (window b (base + m.blockInBytes) (tableBytes b base))
  let b := store32 (store32 b (base + 88) crc.toNat) (base + 16) 0
  store32 b (base + 16) (Cksum.crc32 0 (window b base (headSz b base))).toNat

/-- `gpt_complete_undecisable_info` for LU #0, whose table is the backup chunk. -/
def Disk.gptCompleteUndecisableInfo (d : Disk) (b : ℕ → UInt8) : Except Stop (ℕ → UInt8) :=
  let e := d.gptGetLastGptEntry b 20480
  if 86016 < e + 128 then .error .overrun
  else
    let start := entryStart b e
    let partInBlks := d.partInBlks start
    if partInBlks < d.rsvdInBlks b e then .error .rejected
    else
      let b := store64 b (e + 40) (sub64 (start + (partInBlks - d.rsvdInBlks b e)) 1)
      let b := d.completeHeader b 20480
      if 86016 < 20480 + d.blockInBytes + tableBytes b 20480 ∨
          86016 < 20480 + headSz b 20480 then .error .overrun
      else .ok (d.completeCrcs b 20480)

/-! ### The entry cache -/

/-- A `PART_ENTRY`; `gpt_entry` points into `bdata`. -/
structure CacheEntry where
  magic : ℕ
  name : List UInt8
  lun : ℕ
  gptEntry : ℕ
  deriving DecidableEq

/-- The entries of the table at `base`, as they are cached. -/
def Manager.cacheEntries (m : Manager) (b : ℕ → UInt8) (base lun : ℕ) : List CacheEntry :=
  (List.range (headPartNumEntry b base)).map fun k =>
    ⟨partEntryMagic, entryName b (m.entryAt base k), lun, m.entryAt base k⟩

/-- The chunk of LU `i`, chunk 1 being the backup of GPT #0. -/
def chunkOf (i : ℕ) : ℕ := 20480 * if i = 0 then i else i + 1

/-- One round of `gpt_build_entry_table_cache`: whether `res` is set, and the cache. -/
def Manager.cacheLu (m : Manager) (b : ℕ → UInt8) (acc : Bool × List CacheEntry) (i : ℕ) :
    Option (Bool × List CacheEntry) :=
  if ¬ gptIsValid b (chunkOf i) then some (true, acc.2)
  else if cacheSize < acc.2.length + headPartNumEntry b (chunkOf i) ∨
      86016 < m.entryAt (chunkOf i) (headPartNumEntry b (chunkOf i)) then none
  else
    let cache := acc.2 ++ m.cacheEntries b (chunkOf i) i
    some (acc.1 || cache.isEmpty, cache)

/-- `gpt_build_entry_table_cache`. -/
def Manager.buildEntryTableCache (m : Manager) (b : ℕ → UInt8) :
    Option (Bool × List CacheEntry) :=
  (List.range 3).foldlM (m.cacheLu b) (false, [])

/-- `gpt_mgr`, once its pointers are set. -/
structure Mgr where
  bdata : ℕ → UInt8
  cntE : ℕ
  partEntry : List CacheEntry

/-- `gpt_get_entry`.  A name of 36 characters runs into `lun`. -/
def Mgr.gptGetEntry (g : Mgr) (name : CString) : Option CacheEntry :=
  if g.cntE = 0 then none
  else g.partEntry.find? fun e => CString.ofBytes (e.name ++ [UInt8.ofNat e.lun]) = name

/-- What a caller of `gpt_get_entry` reaches through the entry: name, unit and the 128
bytes of the GPT entry. -/
def Mgr.deref (g : Mgr) (e : CacheEntry) : List UInt8 × ℕ × List UInt8 :=
  (e.name, e.lun, window g.bdata e.gptEntry 128)

/-- The partition a name stands for. -/
def Mgr.lookup (g : Mgr) (name : CString) : Option (List UInt8 × ℕ × List UInt8) :=
  (g.gptGetEntry name).map g.deref

/-- All entries of the cache. -/
def Mgr.listing (g : Mgr) : List (List UInt8 × ℕ × List UInt8) := g.partEntry.map g.deref

/-! ### Booting -/

/-- `gpt_init`, given what `gpt_load_gpt` finds on the device: whether it passes, and the
manager.  The signature check of the backup chunk is taken to pass. -/
def Disk.gptInit (d : Disk) (loaded : Option (ℕ → UInt8)) : Option (Bool × Mgr) :=
  match loaded with
  | none => some (false, ⟨fun _ => 0, 0, []⟩)
  | some dev =>
    let b := copy (fun _ => 0) 0 dev d.blockInBytes 86016
    (d.buildEntryTableCache b).bind fun (bad, cache) =>
      if bad then some (false, ⟨b, 0, cache⟩)
      else
        match d.gptCompleteUndecisableInfo b with
        | .error .overrun => none
        | .error .rejected => some (false, ⟨b, 0, cache⟩)
        | .ok b' =>
          if window b' 0 20480 ≠ window b' 20480 20480 then
            some (false, ⟨b', 0, cache⟩)
          else some (true, ⟨b', cache.length, cache⟩)

/-! ### Updating -/

/-- How an update ends: with 0, or with -1 because the table was turned away, because the
device failed, or because there was no memory for the protective MBR. -/
inductive UpdateEnd where
  | done
  | rejected
  | deviceError
  | noMemory
  deriving DecidableEq

/-- How the device calls and the allocation of an update come out: a write that fails leaves
the given bytes in the blocks it was to write. -/
structure Env where
  write : ℕ → Option (ℕ → UInt8)
  pmbr : Bool

/-- The manager and the bytes of the device. -/
structure UpdateState where
  mgr : Mgr
  dev : ℕ → UInt8

/-- `new_write_native` as call `n` of an update: whether it fails, and the device. -/
def Manager.writeNative (m : Manager) (env : Env) (n : ℕ) (dev buf : ℕ → UInt8)
    (off startInBlks cnt : ℕ) : Bool × (ℕ → UInt8) :=
  match env.write n with
  | none => (false, copy dev (startInBlks * m.blockInBytes) buf off (cnt * m.blockInBytes))
  | some left => (true, copy dev (startInBlks * m.blockInBytes) left 0 (cnt * m.blockInBytes))

/-- `gpt_save_gpt`. -/
def Manager.gptSaveGpt (m : Manager) (env : Env) (n : ℕ) (dev buf : ℕ → UInt8)
    (off startInBlks sizeInBytes : ℕ) : Bool × (ℕ → UInt8) :=
  m.writeNative env n dev buf off startInBlks (u32 (sizeInBytes / m.blockInBytes))

/-- The protective MBR: one partition from `PMBR_LBA` on, and the two magic numbers. -/
def Disk.pmbr (d : Disk) : ℕ → UInt8 :=
  let b := store (fun _ => 0) 510 (le 2 0xAA55)
  let b := store b 450 (le 1 0xEE)
  store32 (store32 b 454 1) 458 (u32 (sub32 d.lastInBlks 1 * d.blockInSecs))

/-- `gpt_set_protective_mbr`, which reports no failed write. -/
def Disk.gptSetProtectiveMbr (d : Disk) (env : Env) (n : ℕ) (dev : ℕ → UInt8) :
    Bool × (ℕ → UInt8) :=
  if env.pmbr then (false, (d.writeNative env n dev d.pmbr 0 0 1).2) else (true, dev)

/-- The four writes of `gpt_update`: the chunks, the alternate header, the alternate
entries and the protective MBR. -/
def Disk.saveTables (d : Disk) (env : Env) (dev b : ℕ → UInt8) : UpdateEnd × (ℕ → UInt8) :=
  let r₀ := d.gptSaveGpt env 0 dev b 0 (u32 (headGptHeader b 0)) 86016
  if r₀.1 then (.deviceError, r₀.2)
  else
    let back := u32 (headGptBackHeader b 0)
    let r₁ := d.gptSaveGpt env 1 r₀.2 b 0 back d.blockInBytes
    if r₁.1 then (.deviceError, r₁.2)
    else
      let sizeInBytes := roundup32 (tableBytes b 0) d.blockInBytes
      let r₂ := d.gptSaveGpt env 2 r₁.2 b d.blockInBytes
        (u32 (sub64 back (sizeInBytes / d.blockInBytes))) sizeInBytes
      if r₂.1 then (.deviceError, r₂.2)
      else
        let r₃ := d.gptSetProtectiveMbr env 3 r₂.2
        (if r₃.1 then .noMemory else .done, r₃.2)

/-- `gpt_update`. -/
def Disk.gptUpdate (d : Disk) (env : Env) (s : UpdateState) (buf : ℕ → UInt8) :
    Option (UpdateEnd × UpdateState) :=
  if ∃ i < 3, ¬ gptIsValid buf (20480 * i) then some (.rejected, s)
  else
    let b := copy s.mgr.bdata 20480 buf 0 (65536)
    match d.gptCompleteUndecisableInfo b with
    | .error .overrun => none
    | .error .rejected => some (.rejected, { s with mgr.bdata := b })
    | .ok b' =>
      let b := copy (copy b' 0 b' 20480 20480) 20480 buf 0 20480
      (d.buildEntryTableCache b).bind fun (bad, cache) =>
        let mgr : Mgr := ⟨b, cache.length, cache⟩
        if bad then some (.rejected, ⟨mgr, s.dev⟩)
        else
          let r := d.saveTables env s.dev b
          some (r.1, ⟨mgr, r.2⟩)

/-! ## What completing a table changes -/

theorem Manager.blockInBytes_bounds (m : Manager) : 512 ≤ m.blockInBytes ∧ m.blockInBytes ≤ 4096 := by
  have h := m.blockInBytes_eq
  rcases m.blockInSecs_cases with h' | h' | h' | h' <;> omega

/-- `ROUNDUP` of what fits into 32 bits. -/
theorem Manager.roundup32_eq (m : Manager) {a : ℕ} (h : a + 4096 ≤ 2 ^ 32) :
    roundup32 a m.blockInBytes = (a + m.blockInBytes - 1) / m.blockInBytes * m.blockInBytes := by
  have hb := m.blockInBytes_bounds
  obtain ⟨k, hk, hk'⟩ := m.blockInBytes_eq_two_pow
  have hsum : a + (m.blockInBytes - 1) < 2 ^ 32 := by omega
  rw [roundup32, u64_of_lt (by omega), hk', and_clear_low (by rw [← hk']; exact hsum) (by omega),
    ← hk', ← Nat.add_sub_assoc (by omega)]

/-- The reserved area is one chunk, or two behind "userdata". -/
theorem Manager.rsvdInBlks_eq (m : Manager) (b : ℕ → UInt8) (e : ℕ) :
    m.rsvdInBlks b e * m.blockInBytes = 20480 ∨ m.rsvdInBlks b e * m.blockInBytes = 2 * 20480 := by
  have hb := m.blockInBytes_eq
  have h₁ : roundup32 20480 m.blockInBytes = 20480 := by
    rw [m.roundup32_eq (by omega), hb]
    rcases m.blockInSecs_cases with h | h | h | h <;> rw [h]
  have h₃ : 20480 / m.blockInBytes * m.blockInBytes = 20480 := by
    rw [hb]
    rcases m.blockInSecs_cases with h | h | h | h <;> rw [h]
  rw [rsvdInBlks, h₁, h₁]
  split_ifs
  · right
    rw [Nat.add_mul, h₃]
  · left
    rw [Nat.add_zero, h₃]

/-- The bytes that completing the table of LU #0 writes, `e` being its last entry. -/
def Touched (e i : ℕ) : Prop :=
  (20480 + 16 ≤ i ∧ i < 20480 + 20) ∨ (20480 + 32 ≤ i ∧ i < 20480 + 40) ∨
    (20480 + 48 ≤ i ∧ i < 20480 + 56) ∨ (20480 + 88 ≤ i ∧ i < 20480 + 92) ∨
    (e + 40 ≤ i ∧ i < e + 48)

theorem Manager.le_gptGetLastGptEntry (m : Manager) (b : ℕ → UInt8) (base : ℕ) :
    base + 384 ≤ m.gptGetLastGptEntry b base := by
  have := m.blockInBytes_bounds
  unfold gptGetLastGptEntry entryAt
  omega

theorem Disk.completeHeader_of_not_mem (d : Disk) {b : ℕ → UInt8} {base i : ℕ}
    (h₁ : i < base + 32 ∨ base + 40 ≤ i) (h₂ : i < base + 48 ∨ base + 56 ≤ i) :
    d.completeHeader b base i = b i := by
  unfold completeHeader
  rw [store64_of_not_mem (by omega), store64_of_not_mem (by omega)]

theorem Manager.completeCrcs_of_not_mem (m : Manager) {b : ℕ → UInt8} {base i : ℕ}
    (h₁ : i < base + 16 ∨ base + 20 ≤ i) (h₂ : i < base + 88 ∨ base + 92 ≤ i) :
    m.completeCrcs b base i = b i := by
  unfold completeCrcs
  rw [store32_of_not_mem (by omega), store32_of_not_mem (by omega), store32_of_not_mem (by omega)]

variable {d : Disk} {b b' c : ℕ → UInt8}

/-- Where the completed last partition ends. -/
def Disk.newEnd (d : Disk) (b : ℕ → UInt8) (e : ℕ) : ℕ :=
  sub64 (entryStart b e + (d.partInBlks (entryStart b e) - d.rsvdInBlks b e)) 1

/-- The completed table. -/
def Disk.completed (d : Disk) (b : ℕ → UInt8) (e : ℕ) : ℕ → UInt8 :=
  d.completeCrcs (d.completeHeader (store64 b (e + 40) (d.newEnd b e)) 20480) 20480

/-- The checks of `gpt_complete_undecisable_info` as checks of the table it is given. -/
theorem complete_eq (d : Disk) (b : ℕ → UInt8) :
    d.gptCompleteUndecisableInfo b =
      let e := d.gptGetLastGptEntry b 20480
      if 86016 < e + 128 then .error .overrun
      else if d.partInBlks (entryStart b e) < d.rsvdInBlks b e then .error .rejected
      else if 86016 < 20480 + d.blockInBytes + tableBytes b 20480 ∨
          86016 < 20480 + headSz b 20480 then .error .overrun
      else .ok (d.completed b e) := by
  have he := d.le_gptGetLastGptEntry b 20480
  unfold Disk.gptCompleteUndecisableInfo
  dsimp only
  generalize d.gptGetLastGptEntry b 20480 = e at he ⊢
  have hsame : ∀ v, ∀ a, (a = 12 ∨ a = 80 ∨ a = 84) →
      load32 (d.completeHeader (store64 b (e + 40) v) 20480) (20480 + a) = load32 b (20480 + a) :=
    fun v a ha => load32_congr fun i hi hi' => by
      rw [d.completeHeader_of_not_mem (by omega) (by omega), store64_of_not_mem (by omega)]
  simp only [tableBytes, headSz, headPartNumEntry, headPartSizeEntry, hsame _ 12 (by omega),
    hsame _ 80 (by omega), hsame _ 84 (by omega)]
  rfl

/-- **What completing does:** the fields named above and nothing else, the last
partition ending where `part_in_blks` says. -/
theorem completed_spec {e : ℕ} (he : 20480 + 384 ≤ e) :
    (∀ i, ¬ Touched e i → d.completed b e i = b i) ∧
      entryEnd (d.completed b e) e = d.newEnd b e := by
  constructor
  · intro i hi
    unfold Touched at hi
    rw [Disk.completed, d.completeCrcs_of_not_mem (by omega) (by omega),
      d.completeHeader_of_not_mem (by omega) (by omega), store64_of_not_mem (by omega)]
  · rw [entryEnd, load64_congr fun i hi hi' => by
      rw [Disk.completed, d.completeCrcs_of_not_mem (by omega) (by omega),
        d.completeHeader_of_not_mem (by omega) (by omega)], load64_store64]
    exact u64_of_lt (u64_lt _)

section Congr

variable (h : AgreeOn 20480 86016 b c)

include h

theorem last_congr (m : Manager) :
    m.gptGetLastGptEntry b 20480 = m.gptGetLastGptEntry c 20480 := by
  have hnum := h.load32 (a := 20480 + 80) (by omega) (by omega)
  unfold Manager.gptGetLastGptEntry headPartNumEntry
  rw [hnum]

theorem entryName_congr {e : ℕ} (hl : 20480 ≤ e) (hh : e + 128 ≤ 86016) :
    entryName b e = entryName c e :=
  List.map_congr_left fun j hj => h _ (by omega) (by have := List.mem_range.1 hj; omega)

theorem rsvdInBlks_congr (m : Manager) {e : ℕ} (hl : 20480 ≤ e) (hh : e + 128 ≤ 86016) :
    m.rsvdInBlks b e = m.rsvdInBlks c e := by
  rw [Manager.rsvdInBlks, Manager.rsvdInBlks, entryName_congr h hl hh]

theorem completeHeader_congr (d : Disk) :
    AgreeOn 20480 86016 (d.completeHeader b 20480) (d.completeHeader c 20480) := by
  have h' := h.store64 (20480 + 32) d.lastInBlks
  unfold Disk.completeHeader
  have hsize := h'.load32 (a := 20480 + 84) (by omega) (by omega)
  unfold headPartSizeEntry
  dsimp only
  rw [hsize]
  exact h'.store64 _ _

theorem tableBytes_congr : tableBytes b 20480 = tableBytes c 20480 := by
  rw [tableBytes, tableBytes, headPartNumEntry, headPartNumEntry, headPartSizeEntry,
    headPartSizeEntry, h.load32 (by omega) (by omega),
    h.load32 (by omega) (by omega)]

theorem completeCrcs_congr (m : Manager) (ht : 20480 + m.blockInBytes + tableBytes b 20480 ≤ 86016)
    (hs : 20480 + headSz b 20480 ≤ 86016) :
    AgreeOn 20480 86016 (m.completeCrcs b 20480) (m.completeCrcs c 20480) := by
  unfold Manager.completeCrcs
  rw [← tableBytes_congr h, ← h.window (by omega) ht]
  have h' := (h.store32 (20480 + 88)
    (Cksum.crc32 0 (window b (20480 + m.blockInBytes) (tableBytes b 20480))).toNat).store32
      (20480 + 16) 0
  -- `head_sz` is not among the fields written so far
  have hsz : headSz (store32 (store32 b (20480 + 88) (Cksum.crc32 0
      (window b (20480 + m.blockInBytes) (tableBytes b 20480))).toNat) (20480 + 16) 0)
        20480 = headSz b 20480 := by
    rw [headSz, load32_store32_of_ne (by omega), load32_store32_of_ne (by omega), headSz]
  have hsz' := h'.load32 (a := 20480 + 12) (by omega) (by omega)
  dsimp only
  rw [headSz, headSz, ← hsz', ← headSz, hsz, ← h'.window (by omega) hs]
  exact h'.store32 _ _

theorem completed_congr (d : Disk) {e : ℕ} (hl : 20480 + 384 ≤ e) (hh : e + 128 ≤ 86016)
    (ht : 20480 + d.blockInBytes + tableBytes b 20480 ≤ 86016) (hs : 20480 + headSz b 20480 ≤ 86016) :
    AgreeOn 20480 86016 (d.completed b e) (d.completed c e) := by
  have hrsvd := rsvdInBlks_congr h d.toManager (e := e) (by omega) hh
  have hstart := h.load64 (a := e + 32) (by omega) (by omega)
  have hsame : ∀ v, ∀ a, (a = 12 ∨ a = 80 ∨ a = 84) →
      load32 (d.completeHeader (store64 b (e + 40) v) 20480) (20480 + a) = load32 b (20480 + a) :=
    fun v a ha => load32_congr fun i hi hi' => by
      rw [d.completeHeader_of_not_mem (by omega) (by omega), store64_of_not_mem (by omega)]
  unfold Disk.completed Disk.newEnd
  rw [entryStart, entryStart, ← hstart, ← hrsvd]
  refine completeCrcs_congr (completeHeader_congr (h.store64 _ _) d) d.toManager ?_ ?_
  · rw [tableBytes, headPartNumEntry, headPartSizeEntry, hsame _ 80 (by omega),
      hsame _ 84 (by omega)]
    exact ht
  · rw [headSz, hsame _ 12 (by omega)]
    exact hs

end Congr

/-! ## The entry cache of valid tables -/

/-- The number of entries that LU `i` describes. -/
def luEntries (b : ℕ → UInt8) (i : ℕ) : ℕ := headPartNumEntry b (chunkOf i)

/-- The tables lie in `bdata` and their entries in the cache. -/
structure CacheFits (m : Manager) (b : ℕ → UInt8) : Prop where
  tables : ∀ i < 3, m.entryAt (chunkOf i) (luEntries b i) ≤ 86016
  total : luEntries b 0 + luEntries b 1 + luEntries b 2 ≤ cacheSize

variable {i : ℕ}

theorem cacheLu_eq {m : Manager} {acc : Bool × List CacheEntry}
    (hv : gptIsValid b (chunkOf i)) :
    m.cacheLu b acc i =
      if acc.2.length + luEntries b i ≤ cacheSize ∧
          m.entryAt (chunkOf i) (luEntries b i) ≤ 86016 then
        some (acc.1 || (acc.2 ++ m.cacheEntries b (chunkOf i) i).isEmpty,
          acc.2 ++ m.cacheEntries b (chunkOf i) i)
      else none := by
  unfold Manager.cacheLu luEntries
  rw [if_neg (not_not.2 hv)]
  by_cases h : acc.2.length + headPartNumEntry b (chunkOf i) ≤ cacheSize ∧
      m.entryAt (chunkOf i) (headPartNumEntry b (chunkOf i)) ≤ 86016
  · rw [if_neg (by omega), if_pos h]
  · rw [if_pos (by omega), if_neg h]

@[simp] theorem length_cacheEntries (m : Manager) (b : ℕ → UInt8) (base lun : ℕ) :
    (m.cacheEntries b base lun).length = headPartNumEntry b base := by
  simp [Manager.cacheEntries]

/-- **The cache of three valid tables:** all their entries, turned away when LU #0 has
none. -/
theorem buildEntryTableCache_eq {m : Manager} (hv : ∀ i < 3, gptIsValid b (chunkOf i)) :
    (CacheFits m b → m.buildEntryTableCache b = some (decide (luEntries b 0 = 0),
      (List.range 3).flatMap fun i => m.cacheEntries b (chunkOf i) i)) ∧
    (¬ CacheFits m b → m.buildEntryTableCache b = none) := by
  have hfold : m.buildEntryTableCache b = (m.cacheLu b (false, []) 0).bind fun x =>
      (m.cacheLu b x 1).bind fun y => m.cacheLu b y 2 := by
    unfold Manager.buildEntryTableCache
    rw [show List.range 3 = [0, 1, 2] from rfl]
    simp only [List.foldlM_cons, List.foldlM_nil, Option.bind_eq_bind, Option.pure_def,
      Option.bind_fun_some]
  have hlen : ∀ i, (m.cacheEntries b (chunkOf i) i).length = luEntries b i := fun i =>
    length_cacheEntries m b _ i
  rw [hfold, cacheLu_eq (hv 0 (by omega)), show List.range 3 = [0, 1, 2] from rfl]
  simp only [List.flatMap_cons, List.flatMap_nil, List.append_nil, List.nil_append,
    List.length_nil, Nat.zero_add, Bool.false_or, ← List.append_assoc]
  constructor
  · rintro ⟨ht, hn⟩
    have hbad : ∀ l k : List CacheEntry, ((m.cacheEntries b (chunkOf 0) 0).isEmpty ||
        (m.cacheEntries b (chunkOf 0) 0 ++ l).isEmpty ||
          (m.cacheEntries b (chunkOf 0) 0 ++ l ++ k).isEmpty) = decide (luEntries b 0 = 0) := by
      intro l k
      rw [← hlen 0]
      cases m.cacheEntries b (chunkOf 0) 0 <;> simp
    rw [if_pos ⟨by omega, ht 0 (by omega)⟩, Option.bind_some, cacheLu_eq (hv 1 (by omega)),
      if_pos ⟨by rw [hlen]; omega, ht 1 (by omega)⟩, Option.bind_some,
      cacheLu_eq (hv 2 (by omega)),
      if_pos ⟨by rw [List.length_append, hlen, hlen]; omega, ht 2 (by omega)⟩, hbad]
  · intro h
    by_cases h₀ : luEntries b 0 ≤ cacheSize ∧ m.entryAt (chunkOf 0) (luEntries b 0) ≤ 86016
    swap
    · rw [if_neg h₀, Option.bind_none]
    rw [if_pos h₀, Option.bind_some, cacheLu_eq (hv 1 (by omega)), hlen]
    by_cases h₁ : luEntries b 0 + luEntries b 1 ≤ cacheSize ∧
        m.entryAt (chunkOf 1) (luEntries b 1) ≤ 86016
    swap
    · rw [if_neg h₁, Option.bind_none]
    rw [if_pos h₁, Option.bind_some, cacheLu_eq (hv 2 (by omega)), List.length_append, hlen, hlen]
    refine if_neg fun h₂ => h ⟨fun i hi => ?_, h₂.1⟩
    obtain rfl | rfl | rfl : i = 0 ∨ i = 1 ∨ i = 2 := by omega
    exacts [h₀.2, h₁.2, h₂.2]

/-! ## Completing a downloaded image -/

variable {buf : ℕ → UInt8}

/-- The image where the backup chunk and what follows it are. -/
def laid (buf : ℕ → UInt8) : ℕ → UInt8 := fun i => buf (i - 20480)

theorem laid_add (buf : ℕ → UInt8) (i : ℕ) : laid buf (20480 + i) = buf i := by
  rw [laid, Nat.add_sub_cancel_left]

theorem load32_laid (buf : ℕ → UInt8) (a : ℕ) : load32 (laid buf) (20480 + a) = load32 buf a :=
  congrArg ofLe (window_congr fun i _ => by rw [Nat.add_assoc, laid_add])

theorem load64_laid (buf : ℕ → UInt8) (a : ℕ) : load64 (laid buf) (20480 + a) = load64 buf a :=
  congrArg ofLe (window_congr fun i _ => by rw [Nat.add_assoc, laid_add])

theorem entryName_laid (buf : ℕ → UInt8) (e : ℕ) :
    entryName (laid buf) (20480 + e) = entryName buf e :=
  List.map_congr_left fun j _ => by rw [Nat.add_assoc, Nat.add_assoc, laid_add, ← Nat.add_assoc]

theorem last_laid (m : Manager) (buf : ℕ → UInt8) :
    m.gptGetLastGptEntry (laid buf) 20480 = 20480 + m.gptGetLastGptEntry buf 0 := by
  have hb := m.blockInBytes_bounds
  have hn := load32_laid buf 80
  unfold Manager.gptGetLastGptEntry Manager.entryAt headPartNumEntry
  rw [hn]
  simp only [Nat.zero_add]
  omega

/-- **What an image has to satisfy:** its last entry lies in the chunks, what is left of
the device behind the start of the last partition holds the reserved area, and both
checksums cover bytes of the chunks. -/
theorem complete_of_agree {d : Disk} (h : AgreeOn 20480 86016 b (laid buf)) :
    d.gptCompleteUndecisableInfo b =
      let e := d.gptGetLastGptEntry buf 0
      if 65536 < e + 128 then .error .overrun
      else if d.partInBlks (entryStart buf e) < d.rsvdInBlks buf e then .error .rejected
      else if 65536 < d.blockInBytes + tableBytes buf 0 ∨ 65536 < headSz buf 0 then .error .overrun
      else .ok (d.completed b (20480 + e)) := by
  have htable : tableBytes b 20480 = tableBytes buf 0 := by
    rw [tableBytes_congr h, tableBytes, tableBytes, headPartNumEntry, headPartSizeEntry,
      load32_laid, load32_laid]
    rfl
  have hsz : headSz b 20480 = headSz buf 0 := by
    rw [headSz, headSz, h.load32 (a := 20480 + 12) (by omega) (by omega), load32_laid]
  rw [complete_eq, last_congr h, last_laid, htable, hsz]
  dsimp only
  generalize d.gptGetLastGptEntry buf 0 = e
  by_cases hin : 65536 < e + 128
  · rw [if_pos hin, if_pos (by omega)]
  have hrsvd : d.rsvdInBlks b (20480 + e) = d.rsvdInBlks buf e := by
    rw [rsvdInBlks_congr h d.toManager (by omega) (by omega), Manager.rsvdInBlks,
      Manager.rsvdInBlks, entryName_laid]
  have hstart : entryStart b (20480 + e) = entryStart buf e := by
    rw [entryStart, entryStart, h.load64 (a := 20480 + e + 32) (by omega) (by omega),
      Nat.add_assoc, load64_laid]
  rw [if_neg hin, if_neg (by omega), hrsvd, hstart]
  by_cases hfit : d.partInBlks (entryStart buf e) < d.rsvdInBlks buf e
  · rw [if_pos hfit, if_pos hfit]
  rw [if_neg hfit, if_neg hfit]
  by_cases hcrc : 65536 < d.blockInBytes + tableBytes buf 0 ∨ 65536 < headSz buf 0
  · rw [if_pos hcrc, if_pos (by omega)]
  · rw [if_neg hcrc, if_neg (by omega)]

/-- The manager's memory with the image copied in. -/
def incoming (mem buf : ℕ → UInt8) : ℕ → UInt8 := copy mem 20480 buf 0 65536

theorem incoming_agree (mem buf : ℕ → UInt8) : AgreeOn 20480 86016 (incoming mem buf) (laid buf) :=
  fun i hl hh => by
    rw [incoming, copy_of_mem hl (by omega), Nat.zero_add]
    rfl

/-- The completed table moved to GPT #0, the backup chunk as it was downloaded. -/
def swapped (b buf : ℕ → UInt8) : ℕ → UInt8 := copy (copy b 0 b 20480 20480) 20480 buf 0 20480

theorem swapped_primary (b buf : ℕ → UInt8) (h : i < 20480) :
    swapped b buf i = b (20480 + i) := by
  rw [swapped, copy_of_not_mem (.inl h), copy_of_mem (Nat.zero_le _) (by omega), Nat.sub_zero]

theorem swapped_backup (b buf : ℕ → UInt8) (h : i < 20480) :
    swapped b buf (20480 + i) = buf i := by
  rw [swapped, copy_of_mem (by omega) (by omega), Nat.zero_add, Nat.add_sub_cancel_left]

theorem swapped_rest (b buf : ℕ → UInt8) (h : 40960 ≤ i) : swapped b buf i = b i := by
  rw [swapped, copy_of_not_mem (.inr h), copy_of_not_mem (by omega)]

/-- The memory an update builds its cache from. -/
def Disk.updated (d : Disk) (mem buf : ℕ → UInt8) : ℕ → UInt8 :=
  swapped (d.completed (incoming mem buf) (20480 + d.gptGetLastGptEntry buf 0)) buf

theorem updated_backup (d : Disk) (mem : ℕ → UInt8) (h : i < 20480) :
    d.updated mem buf (20480 + i) = buf i :=
  swapped_backup _ _ h

/-- A byte of a header that completing leaves alone, of whichever unit. -/
def Kept (a : ℕ) : Prop :=
  a < 128 ∧ (a < 16 ∨ 20 ≤ a) ∧ (a < 32 ∨ 56 ≤ a) ∧ (a < 88 ∨ 92 ≤ a)

variable {mem : ℕ → UInt8}

theorem updated_header {i a : ℕ} (hi : i < 3) (ha : Kept a) :
    d.updated mem buf (chunkOf i + a) = buf (20480 * i + a) := by
  have he := d.le_gptGetLastGptEntry buf 0
  have hmod : d.gptGetLastGptEntry buf 0 % 128 = 0 := by
    have hb := d.blockInBytes_eq
    unfold Manager.gptGetLastGptEntry Manager.entryAt
    omega
  unfold Kept at ha
  have hfree : ∀ j, j = 20480 * (i + 1) + a →
      d.completed (incoming mem buf) (20480 + d.gptGetLastGptEntry buf 0) j = buf (20480 * i + a) := by
    intro j hj
    rw [(completed_spec (by omega)).1 j (by unfold Touched; omega),
      incoming_agree mem buf j (by omega) (by omega), laid, show j - 20480 = 20480 * i + a by omega]
  unfold Disk.updated chunkOf
  split_ifs with h
  · rw [swapped_primary _ _ (by omega)]
    exact hfree _ (by omega)
  · rw [swapped_rest _ _ (by omega)]
    exact hfree _ (by omega)

theorem updated_load32 {i a : ℕ} (hi : i < 3) (ha : ∀ j < 4, Kept (a + j)) :
    load32 (d.updated mem buf) (chunkOf i + a) = load32 buf (20480 * i + a) :=
  congrArg ofLe (window_congr fun j hj => by
    rw [Nat.add_assoc, updated_header hi (ha j hj), ← Nat.add_assoc])

theorem updated_load64 {i a : ℕ} (hi : i < 3) (ha : ∀ j < 8, Kept (a + j)) :
    load64 (d.updated mem buf) (chunkOf i + a) = load64 buf (20480 * i + a) :=
  congrArg ofLe (window_congr fun j hj => by
    rw [Nat.add_assoc, updated_header hi (ha j hj), ← Nat.add_assoc])

theorem updated_luEntries (hi : i < 3) :
    luEntries (d.updated mem buf) i = headPartNumEntry buf (20480 * i) :=
  updated_load32 hi fun j hj => by unfold Kept; omega

theorem updated_valid (hi : i < 3) :
    gptIsValid (d.updated mem buf) (chunkOf i) ↔ gptIsValid buf (20480 * i) := by
  have h := @updated_load64 d buf mem i 0 hi
    fun j hj => by unfold Kept; omega
  simp only [Nat.add_zero] at h
  rw [gptIsValid, gptIsValid, headSignature, headSignature, h]

/-- The tables of an image lie in `bdata` and their entries in the cache. -/
structure ImageFits (m : Manager) (buf : ℕ → UInt8) : Prop where
  tables : ∀ i < 3, m.entryAt (chunkOf i) (headPartNumEntry buf (20480 * i)) ≤ 86016
  total : headPartNumEntry buf 0 + headPartNumEntry buf 20480 + headPartNumEntry buf 40960
    ≤ cacheSize

theorem cacheFits_updated :
    CacheFits d.toManager (d.updated mem buf) ↔ ImageFits d.toManager buf := by
  have hn : ∀ i < 3, luEntries (d.updated mem buf) i = headPartNumEntry buf (20480 * i) :=
    fun i hi => updated_luEntries hi
  constructor
  · rintro ⟨ht, hs⟩
    rw [hn 0 (by omega), hn 1 (by omega), hn 2 (by omega)] at hs
    exact ⟨fun i hi => hn i hi ▸ ht i hi, hs⟩
  · rintro ⟨ht, hs⟩
    refine ⟨fun i hi => hn i hi ▸ ht i hi, ?_⟩
    rw [hn 0 (by omega), hn 1 (by omega), hn 2 (by omega)]
    exact hs

/-- The cache that an update builds. -/
def Disk.updatedCache (d : Disk) (mem buf : ℕ → UInt8) : List CacheEntry :=
  (List.range 3).flatMap fun i => d.cacheEntries (d.updated mem buf) (chunkOf i) i

/-- The manager that an update leaves. -/
def Disk.updatedMgr (d : Disk) (mem buf : ℕ → UInt8) : Mgr :=
  ⟨d.updated mem buf, (d.updatedCache mem buf).length, d.updatedCache mem buf⟩

/-- Every check that follows the signatures. -/
structure Passes (d : Disk) (buf : ℕ → UInt8) : Prop where
  last_in : d.gptGetLastGptEntry buf 0 + 128 ≤ 65536
  last_fits : d.rsvdInBlks buf (d.gptGetLastGptEntry buf 0) ≤
    d.partInBlks (entryStart buf (d.gptGetLastGptEntry buf 0))
  table_in : d.blockInBytes + tableBytes buf 0 ≤ 65536
  head_in : headSz buf 0 ≤ 65536
  fits : ImageFits d.toManager buf
  nonempty : headPartNumEntry buf 0 ≠ 0

/-- **An image with valid headers that passes** is written. -/
theorem gptUpdate_of_passes {env : Env} {s : UpdateState} (hv : ∀ i < 3, gptIsValid buf (20480 * i))
    (h : Passes d buf) :
    d.gptUpdate env s buf = some ((d.saveTables env s.dev (d.updated s.mgr.bdata buf)).1,
        ⟨d.updatedMgr s.mgr.bdata buf, (d.saveTables env s.dev (d.updated s.mgr.bdata buf)).2⟩) := by
  have hok := complete_of_agree (d := d) (incoming_agree s.mgr.bdata buf)
  dsimp only at hok
  rw [if_neg (Nat.not_lt.2 h.last_in), if_neg (Nat.not_lt.2 h.last_fits),
    if_neg (not_or.2 ⟨Nat.not_lt.2 h.table_in, Nat.not_lt.2 h.head_in⟩), incoming] at hok
  have hcache := (buildEntryTableCache_eq (m := d.toManager)
    (b := d.updated s.mgr.bdata buf) fun i hi => (updated_valid hi).2 (hv i hi)).1
      (cacheFits_updated.2 h.fits)
  rw [updated_luEntries (by omega), decide_eq_false h.nonempty] at hcache
  unfold Disk.gptUpdate
  rw [if_neg (by rintro ⟨i, hi, hn⟩; exact hn (hv i hi))]
  simp only [hok]
  have hmem : copy (copy (d.completed (copy s.mgr.bdata 20480 buf 0 65536)
      (20480 + d.gptGetLastGptEntry buf 0)) 0 (d.completed (copy s.mgr.bdata 20480 buf 0 65536)
        (20480 + d.gptGetLastGptEntry buf 0)) 20480 20480) 20480 buf 0 20480 =
      d.updated s.mgr.bdata buf := rfl
  rw [hmem, hcache]
  simp only [Option.bind_some, Bool.false_eq_true, if_false]
  rfl

/-- **An image with valid headers that does not pass** has been copied over the backup
chunk and the tables of LU #1 and LU #2 when it is turned away, if it is. -/
theorem gptUpdate_of_not_passes {env : Env} {s : UpdateState}
    (hv : ∀ i < 3, gptIsValid buf (20480 * i)) (h : ¬ Passes d buf) :
    d.gptUpdate env s buf = none ∨
      ∃ s', d.gptUpdate env s buf = some (.rejected, s') ∧ s'.mgr.bdata 20480 = buf 0 := by
  have hok := complete_of_agree (d := d) (incoming_agree s.mgr.bdata buf)
  have hfirst : copy s.mgr.bdata 20480 buf 0 65536 20480 = buf 0 := by
    rw [copy_of_mem (by omega) (by omega)]
  dsimp only at hok
  unfold Disk.gptUpdate
  rw [if_neg (by rintro ⟨i, hi, hn⟩; exact hn (hv i hi))]
  by_cases h₁ : 65536 < d.gptGetLastGptEntry buf 0 + 128
  · rw [if_pos h₁, incoming] at hok
    simp only [hok]
    exact .inl trivial
  by_cases h₂ : d.partInBlks (entryStart buf (d.gptGetLastGptEntry buf 0)) <
      d.rsvdInBlks buf (d.gptGetLastGptEntry buf 0)
  · rw [if_neg h₁, if_pos h₂, incoming] at hok
    simp only [hok]
    exact .inr ⟨_, rfl, hfirst⟩
  by_cases h₃ : 65536 < d.blockInBytes + tableBytes buf 0 ∨ 65536 < headSz buf 0
  · rw [if_neg h₁, if_neg h₂, if_pos h₃, incoming] at hok
    simp only [hok]
    exact .inl trivial
  rw [if_neg h₁, if_neg h₂, if_neg h₃, incoming] at hok
  have hmem : copy (copy (d.completed (copy s.mgr.bdata 20480 buf 0 65536)
      (20480 + d.gptGetLastGptEntry buf 0)) 0 (d.completed (copy s.mgr.bdata 20480 buf 0 65536)
        (20480 + d.gptGetLastGptEntry buf 0)) 20480 20480) 20480 buf 0 20480 =
      d.updated s.mgr.bdata buf := rfl
  obtain ⟨hfit, hnot⟩ := buildEntryTableCache_eq (m := d.toManager)
    (b := d.updated s.mgr.bdata buf) fun i hi => (updated_valid hi).2 (hv i hi)
  simp only [hok]
  rw [hmem]
  by_cases hf : ImageFits d.toManager buf
  · -- all that is left is an empty table of LU #0
    have hzero : headPartNumEntry buf 0 = 0 := by
      by_contra hne
      exact h ⟨by omega, by omega, by omega, by omega, hf, hne⟩
    rw [hfit (cacheFits_updated.2 hf), updated_luEntries (by omega), decide_eq_true hzero]
    exact .inr ⟨_, rfl, updated_backup d s.mgr.bdata (i := 0) (by omega)⟩
  · rw [hnot (fun h' => hf (cacheFits_updated.1 h'))]
    exact .inl rfl

/-! ## All or nothing -/

/-- An update that is turned away, or ends with -1 before a device write fails, leaves the
manager and the device as they were; so does what a name stands for. -/
def AllOrNothing (d : Disk) (env : Env) (buf : ℕ → UInt8) : Prop :=
  ∀ s : UpdateState, ∃ r, d.gptUpdate env s buf = some r ∧
    (r.1 = .rejected ∨ r.1 = .noMemory →
      r.2 = s ∧ ∀ name, r.2.mgr.lookup name = s.mgr.lookup name)

theorem saveTables_fst (d : Disk) (env : Env) (dev b : ℕ → UInt8) :
    (d.saveTables env dev b).1 =
      if (env.write 0).isSome ∨ (env.write 1).isSome ∨ (env.write 2).isSome then .deviceError
      else if env.pmbr then .done else .noMemory := by
  unfold Disk.saveTables Disk.gptSetProtectiveMbr Manager.gptSaveGpt Manager.writeNative
  cases h₀ : env.write 0 with
  | some _ => simp
  | none =>
    cases h₁ : env.write 1 with
    | some _ => simp
    | none =>
      cases h₂ : env.write 2 with
      | some _ => simp
      | none => cases env.pmbr <;> simp

/-- **When an update of the GPTs is all or nothing:** a header without the signature, or an
image that passes every other check as well, after which only a failing device stops it. -/
theorem gptUpdate_all_or_nothing_iff (d : Disk) (env : Env) (buf : ℕ → UInt8) :
    AllOrNothing d env buf ↔ (∃ i < 3, ¬ gptIsValid buf (20480 * i)) ∨
        Passes d buf ∧ (env.pmbr = true ∨ ∃ n < 3, (env.write n).isSome) := by
  -- a manager whose backup chunk starts with another byte than the image
  let s₀ : UpdateState := ⟨⟨fun _ => buf 0 + 1, 0, []⟩, fun _ => 0⟩
  have hs₀ : s₀.mgr.bdata 20480 ≠ buf 0 := by
    change buf 0 + 1 ≠ buf 0
    simp
  constructor
  · intro h
    by_cases hv : ∃ i < 3, ¬ gptIsValid buf (20480 * i)
    · exact .inl hv
    have hv' : ∀ i < 3, gptIsValid buf (20480 * i) := fun i hi => by
      by_contra hn
      exact hv ⟨i, hi, hn⟩
    right
    obtain ⟨r, hr, hsame⟩ := h s₀
    by_cases hp : Passes d buf
    · refine ⟨hp, ?_⟩
      by_contra hno
      rw [gptUpdate_of_passes hv' hp] at hr
      cases hr
      have hw : ∀ n < 3, (env.write n).isSome = false := fun n hn => by
        by_contra hne
        exact hno (.inr ⟨n, hn, by simpa only [Bool.not_eq_false] using hne⟩)
      have hm : env.pmbr = false := by
        by_contra hne
        exact hno (.inl (by simpa using hne))
      have hend : (d.saveTables env s₀.dev (d.updated s₀.mgr.bdata buf)).1 = .noMemory := by
        rw [saveTables_fst, hw 0 (by omega), hw 1 (by omega), hw 2 (by omega), hm]
        simp
      have hmgr := congrArg (fun s : UpdateState => s.mgr.bdata 20480) (hsame (.inr hend)).1
      exact hs₀ (hmgr.symm.trans (updated_backup d s₀.mgr.bdata (i := 0) (by omega)))
    · rcases @gptUpdate_of_not_passes _ _ env s₀ hv' hp with hn | ⟨s', hs', hbyte⟩
      · rw [hn] at hr
        cases hr
      · rw [hs'] at hr
        cases hr
        have hmgr := congrArg (fun s : UpdateState => s.mgr.bdata 20480) (hsame (.inl rfl)).1
        exact absurd (hmgr.symm.trans hbyte) hs₀
  · rintro (hv | ⟨hp, hend⟩) s
    · exact ⟨_, if_pos hv, fun _ => ⟨rfl, fun _ => rfl⟩⟩
    by_cases hv : ∃ i < 3, ¬ gptIsValid buf (20480 * i)
    · exact ⟨_, if_pos hv, fun _ => ⟨rfl, fun _ => rfl⟩⟩
    have hv' : ∀ i < 3, gptIsValid buf (20480 * i) := fun i hi => by
      by_contra hn
      exact hv ⟨i, hi, hn⟩
    refine ⟨_, gptUpdate_of_passes hv' hp, fun hr => absurd hr ?_⟩
    simp only [saveTables_fst]
    rcases hend with hm | ⟨n, hn, hw⟩
    · simp only [hm, if_true]
      split_ifs <;> simp
    · obtain rfl | rfl | rfl : n = 0 ∨ n = 1 ∨ n = 2 := by omega
      all_goals rw [if_pos (by simp [hw])]; simp

end Gpt
end LittleKernel
