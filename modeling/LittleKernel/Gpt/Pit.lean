/-
# The layout of a PIT

`lib/gpt/pit.c`: `pit_check_header`, `pit_check_info`, `pit_check_info_gpt` and
`pit_lba_cumulation`, on the table of `pit_format.h` (whose `hdr` the code reads):
a header of 256 bytes and 63 entries of 256 bytes.

| offset | header | entry |
| ---: | --- | --- |
| 0 | `magic` | `id` |
| 4 | `count` | `filesys` |
| 8 | `pb_ver` | `blkstart` |
| 12 | | `blknum` |
| 16 | | `lun` |
| 20 | | `name`, `option`, `info` |

An entry gives a size in sectors; the code assigns the starts.  LU 0 comes first: behind
32 MiB the partitions that are not in the GPT, then from the next 4 KiB on those that are,
one of which may ask for what remains.  All sums are 32-bit ones; `chain_eq` says what they
come to, and the `_spec` theorems what a pass over the entries leaves.
-/

import LittleKernel.Lib.Fields
import LittleKernel.Lib.Word
import Mathlib.Algebra.BigOperators.Group.Finset.Basic
import Mathlib.Algebra.BigOperators.Intervals
import Mathlib.Logic.Function.Basic

namespace LittleKernel
namespace Pit

open Memory Word Bytes Function

/-- A `struct pit_entry`; `text` is what stands from `name` on.  A name without a NUL runs
into the option. -/
structure PitEntry where
  filesys : ℕ
  blkstart : ℕ
  blknum : ℕ
  lun : ℕ
  text : List UInt8
  text_length : text.length = 236

/-- A `struct pit_info`. -/
structure PitInfo where
  magic : ℕ
  count : ℕ
  pte : ℕ → PitEntry

/-- `PIT_MAGIC` and `PIT_MAX_PART_NUM`. -/
def pitMagic : ℕ := 0x12349876
def pitMaxPartNum : ℕ := 63

/-- `PIT_DISK_LOC`: the 32 MiB in front, in sectors. -/
def pitDiskLoc : ℕ := 65536

/-- `PIT_SIZE_LIMIT`. -/
def pitSizeLimit : ℕ := 32768

/-- `sizeof(struct pit_info)`, what `LOAD_PIT` copies. -/
def pitInfoSize : ℕ := 16384

/-- `LOAD_PIT(&pit, buf)`. -/
def PitInfo.load (b : ℕ → UInt8) : PitInfo where
  magic := load32 b 0
  count := load32 b 4
  pte i :=
    { filesys := load32 b (256 + 256 * i + 4)
      blkstart := load32 b (256 + 256 * i + 8)
      blknum := load32 b (256 + 256 * i + 12)
      lun := load32 b (256 + 256 * i + 16)
      text := window b (256 + 256 * i + 20) 236
      text_length := length_window _ _ _ }

/-- `ptn->name`. -/
def PitEntry.name (e : PitEntry) : CString := CString.ofBytes e.text

/-- `strncmp(ptn->option, "remained", 8)` is 0. -/
def PitEntry.Remained (e : PitEntry) : Prop :=
  (e.text.drop 16).take 8 = [114, 101, 109, 97, 105, 110, 101, 100]

/-- `strncmp(ptn->option, "fixed", 8)` is 0: the NUL ends the comparison. -/
def PitEntry.Fixed (e : PitEntry) : Prop :=
  (e.text.drop 16).take 6 = [102, 105, 120, 101, 100, 0]

/-- `FS_TYPE_SPARSE_EXT4` or `FS_TYPE_SPARSE_F2FS`. -/
def PitEntry.Sparse (e : PitEntry) : Prop := e.filesys = 5 ∨ e.filesys = 6

/-- One of the file systems that make an entry of LU 0 a GPT partition: the sparse ones and
`FS_TYPE_BASIC`. -/
def PitEntry.Gpt (e : PitEntry) : Prop := e.filesys = 5 ∨ e.filesys = 6 ∨ e.filesys = 1

instance (e : PitEntry) : Decidable e.Remained := inferInstanceAs (Decidable (_ = _))
instance (e : PitEntry) : Decidable e.Fixed := inferInstanceAs (Decidable (_ = _))
instance (e : PitEntry) : Decidable e.Sparse := inferInstanceAs (Decidable (_ ∨ _))
instance (e : PitEntry) : Decidable e.Gpt := inferInstanceAs (Decidable (_ ∨ _ ∨ _))

/-- `ptn->blkstart = lba`. -/
def PitInfo.setStart (p : PitInfo) (i lba : ℕ) : PitInfo :=
  { p with pte := update p.pte i { p.pte i with blkstart := lba } }

/-- `ppit->pte[remained_idx].blknum = n`, where there is such an entry. -/
def PitInfo.setRemained (p : PitInfo) (remained : Option ℕ) (n : ℕ) : PitInfo :=
  match remained with
  | none => p
  | some i => { p with pte := update p.pte i { p.pte i with blknum := n } }

/-- The user device: UFS with blocks of 4096 bytes or MMC with blocks of 512.  Its sectors
have 32-bit numbers, and it reaches past the area in front. -/
structure Dev where
  ufs : Bool
  blockCount : ℕ
  sectors_lt : blockCount * (if ufs then 8 else 1) < 2 ^ 32
  room : pitDiskLoc + 48 ≤ blockCount * (if ufs then 8 else 1)

/-- `num_blk_size`: `dev->block_size` in sectors. -/
def Dev.numBlkSize (d : Dev) : ℕ := if d.ufs then 8 else 1

/-- The number of sectors. -/
def Dev.sectors (d : Dev) : ℕ := d.blockCount * d.numBlkSize

/-- `pit_get_last_lba`. -/
def Dev.pitGetLastLba (d : Dev) : ℕ := u32 (sub64 (sub64 (u64 d.sectors) 47) 1)

/-- A `struct gpt_info`. -/
structure GptInfo where
  gptStartLba : ℕ
  gptLastLba : ℕ
  gptEntryCnt : ℕ
  deriving DecidableEq

/-! ### The passes over the entries -/

/-- `pit_check_header`. -/
def pitCheckHeader (p : PitInfo) : Prop := p.magic = pitMagic ∧ p.count ≤ pitMaxPartNum

instance (p : PitInfo) : Decidable (pitCheckHeader p) := inferInstanceAs (Decidable (_ ∧ _))

/-- `__pit_get_part_info`. -/
def pitGetPartInfo (p : PitInfo) (name : CString) : Option PitEntry :=
  ((List.range p.count).map p.pte).find? fun e => e.name = name

/-- The loop of `pit_check_info` from entry `i` on, with `n` entries to go: the table, and
the new `*idx` and `*non_gpt_end` unless an entry is turned away. -/
def pitCheckInfo (lun : ℕ) : ℕ → PitInfo → ℕ → ℕ → PitInfo × Option (ℕ × ℕ)
  | 0, p, i, lba => (p, some (i, lba))
  | n + 1, p, i, lba =>
    let e := p.pte i
    if lun > e.lun then (p, none)
    else if lun ≠ e.lun then (p, some (i, lba))
    else if lun = 0 ∧ e.Gpt then (p, some (i, lba))
    else if e.blknum = 0 then (p, none)
    else if e.name.bytes = [] then (p, none)
    else pitCheckInfo lun n (p.setStart i lba) (i + 1) (u32 (lba + e.blknum))

/-- The checks of `pit_check_info_gpt`: where LU 0 ends, which entry takes what remains,
and `total_size`. -/
def gptScan (p : PitInfo) : ℕ → ℕ → Option ℕ → Bool → ℕ → Option (ℕ × Option ℕ × ℕ)
  | 0, i, remained, _, total => some (i, remained, total)
  | n + 1, i, remained, fixedStarted, total =>
    let e := p.pte i
    if 0 ≠ e.lun then some (i, remained, total)
    else if e.Remained ∧ remained.isSome then none
    else if ¬ e.Gpt then none
    else if e.blknum = 0 ∧ ¬ e.Remained then none
    else if e.blknum % 8 ≠ 0 then none
    else if e.blknum < 5 * 1024 * 2 ∧ e.Sparse ∧ ¬ e.Remained then none
    else if fixedStarted ∧ ¬ e.Fixed then none
    else gptScan p n (i + 1) (if e.Remained then some i else remained)
      (fixedStarted || decide e.Fixed) (u32 (total + e.blknum))

/-- The loop that overrides `blkstart`. -/
def pitPlace : ℕ → PitInfo → ℕ → ℕ → PitInfo
  | 0, p, _, _ => p
  | n + 1, p, i, lba => pitPlace n (p.setStart i lba) (i + 1) (u32 (lba + (p.pte i).blknum))

/-- The sectors that a 'remained' partition gets. -/
def remainedBlknum (gi : GptInfo) (total : ℕ) : ℕ :=
  sub32 (u32 (sub32 gi.gptLastLba gi.gptStartLba + 1)) total / 8 * 8

/-- `pit_check_info_gpt`. -/
def pitCheckInfoGpt (p : PitInfo) (idx : ℕ) (gi : GptInfo) : PitInfo × GptInfo × Option ℕ :=
  match gptScan p (p.count - idx) idx none false 0 with
  | none => (p, gi, none)
  | some (lastIdx, remained, total) =>
    let p := p.setRemained remained (remainedBlknum gi total)
    (pitPlace (lastIdx - idx) p idx gi.gptStartLba, { gi with gptEntryCnt := lastIdx - idx },
      some lastIdx)

/-- The loop over the other units, `fuel` rounds at most. -/
def pitOthers : ℕ → ℕ → PitInfo → ℕ → PitInfo × Bool
  | 0, _, p, _ => (p, false)
  | fuel + 1, lun, p, idx =>
    match pitCheckInfo lun (p.count - idx) p idx 0 with
    | (p', none) => (p', false)
    | (p', some (idx', _)) =>
      if p'.count = idx' then (p', true) else pitOthers fuel (lun + 1) p' idx'

/-- More rounds than there are units. -/
def PitInfo.luns (p : PitInfo) : ℕ :=
  ((List.range p.count).map fun i => (p.pte i).lun).foldr max 0 + 1

/-- The start of the GPT partitions: behind the others, on 4 KiB. -/
def alignLba (lba : ℕ) : ℕ :=
  if lba % 8 ≠ 0 then u32 (u32 (lba + 8) / 8 * 8) else lba

/-- `pit_lba_cumulation`; `check` is the comparison with the GPT on the device, where one is
asked for. -/
def pitLbaCumulation (d : Dev) (check : PitInfo → GptInfo → Bool) (p : PitInfo) (gi : GptInfo) :
    PitInfo × GptInfo × Bool :=
  match pitCheckInfo 0 p.count p 0 pitDiskLoc with
  | (p, none) => (p, gi, false)
  | (p, some (idx, lba)) =>
    let gi := { gi with gptStartLba := alignLba lba, gptLastLba := d.pitGetLastLba }
    match pitCheckInfoGpt p idx gi with
    | (p, gi, none) => (p, gi, false)
    | (p, gi, some idx) =>
      if check p gi then (p, gi, false)
      else
        let r := pitOthers p.luns 1 p idx
        (r.1, gi, r.2)

/-! ## What a pass leaves -/

/-- The sectors of the `k` entries from `i` on. -/
def PitInfo.size (p : PitInfo) (i k : ℕ) : ℕ := ∑ t ∈ Finset.range k, (p.pte (i + t)).blknum

@[simp] theorem PitInfo.size_zero (p : PitInfo) (i : ℕ) : p.size i 0 = 0 := rfl

theorem PitInfo.size_succ' (p : PitInfo) (i k : ℕ) :
    p.size i (k + 1) = (p.pte i).blknum + p.size (i + 1) k := by
  rw [size, Finset.sum_range_succ', Nat.add_comm]
  congr 1
  exact Finset.sum_congr rfl fun t _ => by rw [Nat.add_assoc, Nat.add_comm 1]

/-- The two tables differ in starts only. -/
structure Keeps (p p' : PitInfo) : Prop where
  count : p'.count = p.count
  magic : p'.magic = p.magic
  filesys : ∀ j, (p'.pte j).filesys = (p.pte j).filesys
  blknum : ∀ j, (p'.pte j).blknum = (p.pte j).blknum
  lun : ∀ j, (p'.pte j).lun = (p.pte j).lun
  text : ∀ j, (p'.pte j).text = (p.pte j).text

theorem Keeps.refl (p : PitInfo) : Keeps p p :=
  ⟨rfl, rfl, fun _ => rfl, fun _ => rfl, fun _ => rfl, fun _ => rfl⟩

theorem Keeps.trans {p q r : PitInfo} (h : Keeps p q) (h' : Keeps q r) : Keeps p r where
  count := h'.count.trans h.count
  magic := h'.magic.trans h.magic
  filesys j := (h'.filesys j).trans (h.filesys j)
  blknum j := (h'.blknum j).trans (h.blknum j)
  lun j := (h'.lun j).trans (h.lun j)
  text j := (h'.text j).trans (h.text j)

theorem setStart_keeps (p : PitInfo) (i lba : ℕ) : Keeps p (p.setStart i lba) := by
  refine ⟨rfl, rfl, fun j => ?_, fun j => ?_, fun j => ?_, fun j => ?_⟩
  all_goals
    by_cases h : j = i
    · subst h
      simp [PitInfo.setStart]
    · simp [PitInfo.setStart, update_of_ne h]

variable {p p' : PitInfo}

theorem Keeps.size (h : Keeps p p') (i k : ℕ) : p'.size i k = p.size i k :=
  Finset.sum_congr rfl fun _ _ => h.blknum _

theorem setStart_blkstart (p : PitInfo) (i lba : ℕ) : ((p.setStart i lba).pte i).blkstart = lba := by
  simp [PitInfo.setStart]

theorem setStart_of_ne (p : PitInfo) {i j : ℕ} (lba : ℕ) (h : j ≠ i) :
    (p.setStart i lba).pte j = p.pte j := by
  simp [PitInfo.setStart, update_of_ne h]

theorem u32_add_u32 (a b : ℕ) : u32 (u32 a + b) = u32 (a + b) := Nat.mod_add_mod _ _ _

/-- **Placing `n` entries:** each start is the sum so far. -/
theorem pitPlace_spec (n : ℕ) (p : PitInfo) (i lba : ℕ) (hlba : lba < 2 ^ 32) :
    Keeps p (pitPlace n p i lba) ∧
      (∀ j < n, ((pitPlace n p i lba).pte (i + j)).blkstart = u32 (lba + p.size i j)) ∧
      ∀ j, j < i ∨ i + n ≤ j → (pitPlace n p i lba).pte j = p.pte j := by
  induction n generalizing p i lba with
  | zero => exact ⟨Keeps.refl p, fun _ h => absurd h (Nat.not_lt_zero _), fun _ _ => rfl⟩
  | succ n ih =>
    have hk := setStart_keeps p i lba
    obtain ⟨h₁, h₂, h₃⟩ := ih (p.setStart i lba) (i + 1) (u32 (lba + (p.pte i).blknum)) (u32_lt _)
    rw [pitPlace]
    refine ⟨hk.trans h₁, fun j hj => ?_, fun j hj => ?_⟩
    · rcases Nat.eq_zero_or_pos j with rfl | h
      · simp only [Nat.add_zero, PitInfo.size_zero]
        rw [h₃ i (by omega), setStart_blkstart, u32_of_lt hlba]
      · obtain ⟨j, rfl⟩ := Nat.exists_eq_add_of_le h
        have := h₂ j (by omega)
        rw [hk.size, u32_add_u32] at this
        rw [show i + (0 + 1 + j) = i + 1 + j by omega, this, show 0 + 1 + j = j + 1 by omega,
          PitInfo.size_succ', Nat.add_assoc]
    · rw [h₃ j (by omega), setStart_of_ne _ _ (by omega)]

/-- **A pass of `pit_check_info`** places a run of entries of the unit; in unit 0 it ends
before the first GPT partition. -/
theorem pitCheckInfo_spec {lun : ℕ} {n : ℕ} {i i' lba lba' : ℕ}
    (hlba : lba < 2 ^ 32) (h : pitCheckInfo lun n p i lba = (p', some (i', lba'))) :
    ∃ k ≤ n, i' = i + k ∧ p' = pitPlace k p i lba ∧ lba' = u32 (lba + p.size i k) ∧
      (∀ j < k, (p.pte (i + j)).lun = lun ∧ (lun = 0 → ¬ (p.pte (i + j)).Gpt) ∧
        (p.pte (i + j)).blknum ≠ 0) ∧
      (k = n ∨ lun < (p.pte (i + k)).lun ∨ lun = 0 ∧ (p.pte (i + k)).Gpt) := by
  induction n generalizing p i lba with
  | zero =>
    obtain ⟨rfl, h'⟩ := Prod.mk.inj h
    cases h'
    exact ⟨0, Nat.le_refl _, rfl, rfl, by rw [PitInfo.size_zero, Nat.add_zero, u32_of_lt hlba],
      fun _ h => absurd h (Nat.not_lt_zero _), .inl rfl⟩
  | succ n ih =>
    have stop : (p, some (i, lba)) = (p', some (i', lba')) →
        (lun < (p.pte i).lun ∨ lun = 0 ∧ (p.pte i).Gpt) →
        ∃ k ≤ n + 1, i' = i + k ∧ p' = pitPlace k p i lba ∧ lba' = u32 (lba + p.size i k) ∧
          (∀ j < k, (p.pte (i + j)).lun = lun ∧ (lun = 0 → ¬ (p.pte (i + j)).Gpt) ∧
            (p.pte (i + j)).blknum ≠ 0) ∧
          (k = n + 1 ∨ lun < (p.pte (i + k)).lun ∨ lun = 0 ∧ (p.pte (i + k)).Gpt) := by
      intro h hstop
      obtain ⟨rfl, h'⟩ := Prod.mk.inj h
      cases h'
      exact ⟨0, Nat.zero_le _, rfl, rfl,
        by rw [PitInfo.size_zero, Nat.add_zero, u32_of_lt hlba],
        fun _ h => absurd h (Nat.not_lt_zero _), .inr hstop⟩
    rw [pitCheckInfo] at h
    by_cases h₁ : lun > (p.pte i).lun
    · rw [if_pos h₁] at h
      cases h
    rw [if_neg h₁] at h
    by_cases h₂ : lun ≠ (p.pte i).lun
    · rw [if_pos h₂] at h
      exact stop h (.inl (by omega))
    rw [if_neg h₂] at h
    by_cases h₃ : lun = 0 ∧ (p.pte i).Gpt
    · rw [if_pos h₃] at h
      exact stop h (.inr h₃)
    rw [if_neg h₃] at h
    by_cases h₄ : (p.pte i).blknum = 0
    · rw [if_pos h₄] at h
      cases h
    rw [if_neg h₄] at h
    by_cases h₅ : (p.pte i).name.bytes = []
    · rw [if_pos h₅] at h
      cases h
    rw [if_neg h₅] at h
    have hk := setStart_keeps p i lba
    have hgpt : ∀ j, ((p.setStart i lba).pte j).Gpt ↔ (p.pte j).Gpt := fun j => by
      simp only [PitEntry.Gpt, hk.filesys]
    obtain ⟨k, hkn, rfl, rfl, rfl, hrun, hend⟩ := ih (u32_lt _) h
    refine ⟨k + 1, by omega, by omega, rfl, ?_, fun j hj => ?_, ?_⟩
    · rw [hk.size, u32_add_u32, PitInfo.size_succ', Nat.add_assoc]
    · rcases Nat.eq_zero_or_pos j with rfl | hpos
      · exact ⟨(not_not.1 h₂).symm, fun h0 hg => h₃ ⟨h0, hg⟩, h₄⟩
      · obtain ⟨j, rfl⟩ := Nat.exists_eq_add_of_le hpos
        have := hrun j (by omega)
        rw [hk.lun, hgpt, hk.blknum, show i + 1 + j = i + (0 + 1 + j) by omega] at this
        exact this
    · rw [hk.lun, hgpt, show i + 1 + k = i + (k + 1) by omega] at hend
      rcases hend with rfl | hend
      · exact .inl rfl
      · exact .inr hend

/-- **The checks of the GPT partitions:** a run of them up to the end of unit 0, at most one
of which asks for what remains. -/
theorem gptScan_spec {n : ℕ} {p : PitInfo} {i last total total' : ℕ} {r r' : Option ℕ}
    {fixedStarted : Bool} (hr : ∀ x, r = some x → x < i) (ht : total < 2 ^ 32)
    (h : gptScan p n i r fixedStarted total = some (last, r', total')) :
    ∃ k ≤ n, last = i + k ∧ total' = u32 (total + p.size i k) ∧
      (∀ j < k, (p.pte (i + j)).lun = 0 ∧ (p.pte (i + j)).Gpt ∧ (p.pte (i + j)).blknum % 8 = 0 ∧
        ((p.pte (i + j)).Remained ↔ r' = some (i + j))) ∧ (k = n ∨ (p.pte (i + k)).lun ≠ 0) ∧
      (r' = r ∨ r = none ∧ ∃ j < k, r' = some (i + j)) := by
  induction n generalizing i r fixedStarted total with
  | zero =>
    obtain ⟨rfl, h'⟩ := Prod.mk.inj (Option.some.inj h)
    obtain ⟨rfl, rfl⟩ := Prod.mk.inj h'
    exact ⟨0, Nat.le_refl _, rfl, by rw [PitInfo.size_zero, Nat.add_zero, u32_of_lt ht],
      fun _ h => absurd h (Nat.not_lt_zero _), .inl rfl, .inl rfl⟩
  | succ n ih =>
    rw [gptScan] at h
    by_cases h₁ : 0 ≠ (p.pte i).lun
    · rw [if_pos h₁] at h
      obtain ⟨rfl, h'⟩ := Prod.mk.inj (Option.some.inj h)
      obtain ⟨rfl, rfl⟩ := Prod.mk.inj h'
      exact ⟨0, Nat.zero_le _, rfl, by rw [PitInfo.size_zero, Nat.add_zero, u32_of_lt ht],
        fun _ h => absurd h (Nat.not_lt_zero _), .inr h₁.symm, .inl rfl⟩
    rw [if_neg h₁] at h
    by_cases h₂ : (p.pte i).Remained ∧ r.isSome
    · rw [if_pos h₂] at h
      cases h
    rw [if_neg h₂] at h
    by_cases h₃ : ¬ (p.pte i).Gpt
    · rw [if_pos h₃] at h
      cases h
    rw [if_neg h₃] at h
    by_cases h₄ : (p.pte i).blknum = 0 ∧ ¬ (p.pte i).Remained
    · rw [if_pos h₄] at h
      cases h
    rw [if_neg h₄] at h
    by_cases h₅ : (p.pte i).blknum % 8 ≠ 0
    · rw [if_pos h₅] at h
      cases h
    rw [if_neg h₅] at h
    by_cases h₆ : (p.pte i).blknum < 5 * 1024 * 2 ∧ (p.pte i).Sparse ∧ ¬ (p.pte i).Remained
    · rw [if_pos h₆] at h
      cases h
    rw [if_neg h₆] at h
    by_cases h₇ : fixedStarted = true ∧ ¬ (p.pte i).Fixed
    · rw [if_pos h₇] at h
      cases h
    rw [if_neg h₇] at h
    have hnew : ∀ x, (if (p.pte i).Remained then some i else r) = some x → x < i + 1 := by
      intro x hx
      split_ifs at hx
      · have := Option.some.inj hx
        omega
      · have := hr x hx
        omega
    obtain ⟨k, hkn, rfl, rfl, hrun, hend, hrem⟩ := ih hnew (u32_lt _) h
    -- the entry that asks for what remains: this one, an earlier or a later one
    have hcases : (p.pte i).Remained ∧ r = none ∧ r' = some i ∨
        ¬ (p.pte i).Remained ∧ (r' = r ∨ r = none ∧ ∃ j < k, r' = some (i + 1 + j)) := by
      by_cases hi : (p.pte i).Remained
      · rw [if_pos hi] at hrem
        refine .inl ⟨hi, ?_, ?_⟩
        · cases r with
          | none => rfl
          | some x => exact absurd ⟨hi, rfl⟩ h₂
        · rcases hrem with hrem | ⟨hno, -⟩
          · exact hrem
          · cases hno
      · rw [if_neg hi] at hrem
        exact .inr ⟨hi, hrem⟩
    refine ⟨k + 1, by omega, by omega, ?_, fun j hj => ?_, ?_, ?_⟩
    · rw [u32_add_u32, PitInfo.size_succ', Nat.add_assoc]
    · rcases Nat.eq_zero_or_pos j with rfl | hpos
      · refine ⟨(not_not.1 h₁).symm, not_not.1 h₃, not_not.1 h₅, ?_⟩
        rcases hcases with ⟨hi, -, hx⟩ | ⟨hi, hx⟩
        · exact ⟨fun _ => hx, fun _ => hi⟩
        · refine ⟨fun hi' => absurd hi' hi, fun hx' => ?_⟩
          rcases hx with hx | ⟨-, j, -, hx⟩
          · exact absurd (hr i (hx.symm.trans hx')) (Nat.lt_irrefl _)
          · have := Option.some.inj (hx.symm.trans hx')
            omega
      · obtain ⟨j, rfl⟩ := Nat.exists_eq_add_of_le hpos
        have := hrun j (by omega)
        rw [show i + 1 + j = i + (0 + 1 + j) by omega] at this
        exact this
    · rw [show i + 1 + k = i + (k + 1) by omega] at hend
      rcases hend with rfl | hend
      · exact .inl rfl
      · exact .inr hend
    · rcases hcases with ⟨-, hnone, hx⟩ | ⟨-, hx | ⟨hnone, j, hj, hx⟩⟩
      · exact .inr ⟨hnone, 0, by omega, hx⟩
      · exact .inl hx
      · exact .inr ⟨hnone, j + 1, by omega, by rw [hx]; congr 1; omega⟩

/-- The other units change no entry of unit 0. -/
theorem pitOthers_spec {fuel lun idx : ℕ} (h : pitOthers fuel lun p idx = (p', true)) :
    Keeps p p' ∧ ∀ j < idx, p'.pte j = p.pte j := by
  induction fuel generalizing lun p idx with
  | zero => cases h
  | succ fuel ih =>
    rw [pitOthers] at h
    rcases hc : pitCheckInfo lun (p.count - idx) p idx 0 with ⟨q, _ | ⟨idx', lba'⟩⟩
    · rw [hc] at h
      cases h
    · rw [hc] at h
      obtain ⟨k, -, rfl, rfl, -⟩ := pitCheckInfo_spec (by norm_num) hc
      obtain ⟨hk, -, hout⟩ := pitPlace_spec k p idx 0 (by norm_num)
      dsimp only at h
      split at h
      · obtain ⟨rfl, -⟩ := Prod.mk.inj h
        exact ⟨hk, fun j hj => hout j (.inl hj)⟩
      · obtain ⟨h₁, h₂⟩ := ih h
        exact ⟨hk.trans h₁, fun j hj => (h₂ j (by omega)).trans (hout j (.inl hj))⟩

/-- Rounds enough to reach the last unit: one more changes nothing. -/
theorem pitOthers_fuel {fuel lun idx : ℕ} {p : PitInfo} (hpos : 0 < fuel) (hlun : 0 < lun)
    (hidx : idx ≤ p.count) (h : ∀ j < p.count, (p.pte j).lun < lun + fuel) :
    pitOthers (fuel + 1) lun p idx = pitOthers fuel lun p idx := by
  induction fuel generalizing lun p idx with
  | zero => omega
  | succ fuel ih =>
    rw [pitOthers, pitOthers]
    rcases hc : pitCheckInfo lun (p.count - idx) p idx 0 with ⟨q, _ | ⟨idx', lba'⟩⟩
    · rfl
    · obtain ⟨k, hk, rfl, rfl, -, -, hend⟩ := pitCheckInfo_spec (by norm_num) hc
      obtain ⟨hkeep, -, -⟩ := pitPlace_spec k p idx 0 (by norm_num)
      dsimp only
      split_ifs with hcount
      · rfl
      · rw [hkeep.count] at hcount
        -- the next entry is of a later unit, which the rounds left still reach
        have hnext : lun < (p.pte (idx + k)).lun := by
          rcases hend with hend | hend | ⟨hend, -⟩ <;> omega
        have hreach := h (idx + k) (by omega)
        refine ih (by omega) (by omega) (by rw [hkeep.count]; omega) fun j hj => ?_
        rw [hkeep.count] at hj
        rw [hkeep.lun]
        have := h j hj
        omega

/-- `luns` rounds are enough for the units of all the entries. -/
theorem PitInfo.lun_lt_luns (p : PitInfo) {j : ℕ} (hj : j < p.count) : (p.pte j).lun < p.luns := by
  have hmax : ∀ (l : List ℕ) (x : ℕ), x ∈ l → x ≤ l.foldr max 0 := by
    intro l x hx
    induction l with
    | nil => cases hx
    | cons y l ih =>
      rw [List.foldr_cons]
      rcases List.mem_cons.1 hx with rfl | hx
      · exact Nat.le_max_left _ _
      · exact (ih hx).trans (Nat.le_max_right _ _)
  have := hmax _ _ (List.mem_map.2 ⟨j, List.mem_range.2 hj, rfl⟩ :
    (p.pte j).lun ∈ (List.range p.count).map fun i => (p.pte i).lun)
  unfold luns
  omega

/-- **The loop over the other units ends** before its rounds run out. -/
theorem pitOthers_luns (p : PitInfo) {idx : ℕ} (hidx : idx ≤ p.count) (n : ℕ) :
    pitOthers (p.luns + n) 1 p idx = pitOthers p.luns 1 p idx := by
  induction n with
  | zero => rfl
  | succ n ih =>
    rw [← ih, ← Nat.add_assoc]
    refine pitOthers_fuel (by unfold PitInfo.luns; omega) (by omega) hidx fun j hj => ?_
    have := p.lun_lt_luns hj
    omega

/-! ## The layout -/

/-- **What a layout that was accepted looks like:** `a` entries of unit 0 that are not in the
GPT, `k` that are, the start of the latter, and the entry `r` that takes what remains. -/
structure Accepted (d : Dev) (p p' : PitInfo) (gi : GptInfo) (a k : ℕ) (r : Option ℕ) : Prop where
  le_count : a + k ≤ p.count
  others : ∀ j < a, (p.pte j).lun = 0 ∧ ¬ (p.pte j).Gpt
  gpts : ∀ j < k, (p.pte (a + j)).lun = 0 ∧ (p.pte (a + j)).Gpt ∧
    (p.pte (a + j)).blknum % 8 = 0 ∧ ((p.pte (a + j)).Remained ↔ r = some (a + j))
  stop : a + k = p.count ∨ (p.pte (a + k)).lun ≠ 0
  remained : r = none ∨ ∃ j < k, r = some (a + j)
  start : gi.gptStartLba = alignLba (u32 (pitDiskLoc + p.size 0 a))
  last : gi.gptLastLba = d.pitGetLastLba
  cnt : gi.gptEntryCnt = k
  count : p'.count = p.count
  filesys : ∀ j, (p'.pte j).filesys = (p.pte j).filesys
  text : ∀ j, (p'.pte j).text = (p.pte j).text
  blknum : ∀ j, (p'.pte j).blknum =
    if r = some j then remainedBlknum gi (u32 (p.size a k)) else (p.pte j).blknum
  othersStart : ∀ j < a, (p'.pte j).blkstart = u32 (pitDiskLoc + p.size 0 j)
  gptsStart : ∀ j < k, (p'.pte (a + j)).blkstart = u32 (gi.gptStartLba + p'.size a j)

theorem alignLba_lt {lba : ℕ} (h : lba < 2 ^ 32) : alignLba lba < 2 ^ 32 := by
  unfold alignLba
  split_ifs
  · exact u32_lt _
  · exact h

theorem setRemained_blknum (p : PitInfo) (r : Option ℕ) (n j : ℕ) :
    ((p.setRemained r n).pte j).blknum = if r = some j then n else (p.pte j).blknum := by
  cases r with
  | none => simp [PitInfo.setRemained]
  | some i =>
    by_cases h : i = j
    · subst h
      simp [PitInfo.setRemained]
    · rw [if_neg (by simpa using h)]
      simp [PitInfo.setRemained, update_of_ne (Ne.symm h)]

theorem setRemained_rest (p : PitInfo) (r : Option ℕ) (n : ℕ) :
    (p.setRemained r n).count = p.count ∧ ∀ j,
      ((p.setRemained r n).pte j).filesys = (p.pte j).filesys ∧
        ((p.setRemained r n).pte j).text = (p.pte j).text ∧
          ((p.setRemained r n).pte j).blkstart = (p.pte j).blkstart := by
  cases r with
  | none => simp [PitInfo.setRemained]
  | some i =>
    refine ⟨rfl, fun j => ?_⟩
    by_cases h : j = i
    · subst h
      simp [PitInfo.setRemained]
    · simp [PitInfo.setRemained, update_of_ne h]

/-- What a table that is accepted went through: LU 0, the entry that takes what remains, the others. -/
theorem pitLbaCumulation_spec {d : Dev} {check : PitInfo → GptInfo → Bool}
    {gi gi' : GptInfo} (h : pitLbaCumulation d check p gi = (p', gi', true)) :
    ∃ a k r, Accepted d p p' gi' a k r := by
  unfold pitLbaCumulation at h
  rcases h₁ : pitCheckInfo 0 p.count p 0 pitDiskLoc with ⟨q, _ | ⟨idx, lba⟩⟩
  · rw [h₁] at h
    simp at h
  rw [h₁] at h
  obtain ⟨a, ha, rfl, rfl, rfl, hothers, -⟩ := pitCheckInfo_spec (by norm_num [pitDiskLoc]) h₁
  obtain ⟨hkeep, hstart, -⟩ := pitPlace_spec a p 0 pitDiskLoc (by norm_num [pitDiskLoc])
  simp only [Nat.zero_add] at h hothers hstart ha
  generalize pitPlace a p 0 pitDiskLoc = q at h hkeep hstart
  unfold pitCheckInfoGpt at h
  rcases h₂ : gptScan q (q.count - a) a none false 0 with _ | ⟨last, r, total⟩
  · rw [h₂] at h
    simp at h
  rw [h₂] at h
  obtain ⟨k, hk, rfl, rfl, hgpts, hend, hrem⟩ := gptScan_spec (by simp) (by norm_num) h₂
  rw [hkeep.count] at hk
  simp only [Nat.add_sub_cancel_left, Nat.zero_add, hkeep.size] at h
  have hlba : alignLba (u32 (pitDiskLoc + p.size 0 a)) < 2 ^ 32 := alignLba_lt (u32_lt _)
  -- the entries after each of the three passes: `q₁`, `q₂`, and `p'`
  generalize hq₁ : q.setRemained r _ = q₁ at h
  obtain ⟨hk₂, hstart₂, hout₂⟩ := pitPlace_spec k q₁ a _ hlba
  generalize pitPlace k q₁ a _ = q₂ at h hk₂ hstart₂ hout₂
  split_ifs at h with hcheck
  · simp at h
  obtain ⟨h₃, h⟩ := Prod.mk.inj h
  obtain ⟨rfl, h₄⟩ := Prod.mk.inj h
  obtain ⟨hk₃, hin₃⟩ := pitOthers_spec (Prod.ext h₃ h₄)
  obtain ⟨hcount₁, hrest₁⟩ := setRemained_rest q r (remainedBlknum
    ⟨alignLba (u32 (pitDiskLoc + p.size 0 a)), d.pitGetLastLba, gi.gptEntryCnt⟩ (u32 (p.size a k)))
  have hnum₁ := setRemained_blknum q r (remainedBlknum
    ⟨alignLba (u32 (pitDiskLoc + p.size 0 a)), d.pitGetLastLba, gi.gptEntryCnt⟩ (u32 (p.size a k)))
  rw [hq₁] at hcount₁ hrest₁ hnum₁
  refine ⟨a, k, r, ?_⟩
  refine
    { le_count := by omega
      others := fun j hj => ⟨(hothers j hj).1, (hothers j hj).2.1 trivial⟩
      gpts := fun j hj => ?_
      stop := ?_
      remained := ?_
      start := rfl
      last := rfl
      cnt := rfl
      count := by rw [hk₃.count, hk₂.count, hcount₁, hkeep.count]
      filesys := fun j => by rw [hk₃.filesys, hk₂.filesys, (hrest₁ j).1, hkeep.filesys]
      text := fun j => by rw [hk₃.text, hk₂.text, (hrest₁ j).2.1, hkeep.text]
      blknum := fun j => by rw [hk₃.blknum, hk₂.blknum, hnum₁ j, hkeep.blknum]; rfl
      othersStart := fun j hj => ?_
      gptsStart := fun j hj => ?_ }
  · have := hgpts j hj
    simpa only [hkeep.lun, hkeep.blknum, PitEntry.Gpt, PitEntry.Remained, hkeep.filesys,
      hkeep.text] using this
  · rw [hkeep.lun, hkeep.count] at hend
    omega
  · rcases hrem with hrem | ⟨-, hrem⟩
    · exact .inl hrem
    · exact .inr hrem
  · rw [hin₃ j (by omega), hout₂ j (.inl hj), (hrest₁ j).2.2, hstart j hj]
  · rw [hin₃ (a + j) (by omega), hstart₂ j hj, hk₃.size, hk₂.size]

theorem Dev.numBlkSize_cases (d : Dev) : d.numBlkSize = 8 ∨ d.numBlkSize = 1 := by
  unfold Dev.numBlkSize
  split_ifs <;> simp

theorem Dev.sectors_bounds (d : Dev) :
    d.sectors < 2 ^ 32 ∧ 65584 ≤ d.sectors ∧ d.sectors = d.blockCount * d.numBlkSize :=
  ⟨d.sectors_lt, d.room, rfl⟩

theorem Dev.pitGetLastLba_eq (d : Dev) : d.pitGetLastLba = d.sectors - 48 := by
  obtain ⟨hlt, hge, -⟩ := d.sectors_bounds
  have h₁ : sub64 d.sectors 47 = d.sectors - 47 := sub64_of_le (by omega) (by omega)
  have h₂ : sub64 (d.sectors - 47) 1 = d.sectors - 47 - 1 := sub64_of_le (by omega) (by omega)
  rw [Dev.pitGetLastLba, u64_of_lt (by omega), h₁, h₂, u32_of_lt (by omega), Nat.sub_sub]

end Pit
end LittleKernel
