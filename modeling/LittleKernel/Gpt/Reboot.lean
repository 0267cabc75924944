/-
# Updating the GPTs and booting again

`lib/gpt/gpt.c`: `gpt_update` followed by `gpt_init` on the same device.

The update completes the downloaded table on one copy and writes it beside the
downloaded one; booting completes the downloaded one again and compares.  Both read the
same bytes behind the backup chunk, and the alternate table and the protective MBR are
written to other blocks, so the comparison succeeds whatever the table says
(`gpt_update_then_init`).

What the update computes for the last partition of LU #0 is an end; the other partitions
are taken as the image has them.
-/

import LittleKernel.Gpt.Update

namespace LittleKernel
namespace Gpt

open Memory Word Bytes

variable {d : Disk} {env : Env} {buf dev b : ℕ → UInt8}

/-! ### What the four writes leave on the device -/

/-- The number of blocks of the alternate entries. -/
def Disk.altBlocks (d : Disk) (t : ℕ) : ℕ := (t + d.blockInBytes - 1) / d.blockInBytes

/-- The alternate entries keep to the four blocks of 4 KiB before the last block. -/
theorem altBlocks_bounds (d : Disk) {t : ℕ} (ht : t ≤ 16384) :
    t ≤ d.altBlocks t * d.blockInBytes ∧ d.altBlocks t * d.blockInBytes ≤ 16384 ∧
      d.altBlocks t ≤ 32 := by
  have hb := d.blockInBytes_eq
  unfold Disk.altBlocks
  rcases d.blockInSecs_cases with h | h | h | h <;> rw [h] at hb <;> rw [hb] <;> omega

/-- The blocks of a device behind the tables. -/
theorem Disk.last_bounds (d : Disk) :
    524288 + 20480 ≤ d.lastInBlks * d.blockInBytes + d.blockInBytes ∧ 32 < d.lastInBlks ∧
      d.lastInBlks < 2 ^ 32 ∧ d.blockCount = d.lastInBlks + 1 := by
  have hroom := d.room
  have hcount := d.count_lt
  have hb := d.blockInBytes_bounds
  have hpos : 0 < d.blockCount := by
    rcases Nat.eq_zero_or_pos d.blockCount with h | h
    · rw [h, Nat.zero_mul, startInBytesLuZero] at hroom
      omega
    · exact h
  have hsucc : d.blockCount = d.lastInBlks + 1 := by
    unfold Disk.lastInBlks
    omega
  rw [hsucc, Nat.add_mul, Nat.one_mul, startInBytesLuZero] at hroom
  refine ⟨by omega, ?_, by omega, hsucc⟩
  by_contra hle
  have := Nat.mul_le_mul (show d.lastInBlks ≤ 32 by omega) hb.2
  omega

theorem writeNative_none {m : Manager} {n off start cnt : ℕ} (h : env.write n = none) :
    m.writeNative env n dev b off start cnt =
      (false, copy dev (start * m.blockInBytes) b off (cnt * m.blockInBytes)) := by
  rw [Manager.writeNative, h]

/-- The protective MBR goes to block 0. -/
theorem gptSetProtectiveMbr_of_ge {n i : ℕ} (h : d.blockInBytes ≤ i) :
    (d.gptSetProtectiveMbr env n dev).2 i = dev i := by
  unfold Disk.gptSetProtectiveMbr Manager.writeNative
  split_ifs
  · cases env.write n with
    | none => exact copy_of_not_mem (by omega)
    | some left => exact copy_of_not_mem (by omega)
  · rfl

/-- **What an update that returns 0 has written:** the chunks behind the protective MBR,
and header and entries of GPT #0 at the end of the device. -/
theorem saveTables_done (h : (d.saveTables env dev b).1 = .done)
    (hlba : headGptHeader b 0 = 1) (hback : headGptBackHeader b 0 = d.lastInBlks)
    (ht : tableBytes b 0 ≤ 16384) :
    (∀ j < 86016, (d.saveTables env dev b).2 (d.blockInBytes + j) = b j) ∧ (∀ j < d.blockInBytes,
        (d.saveTables env dev b).2 (d.lastInBlks * d.blockInBytes + j) = b j) ∧
      ∀ j < d.altBlocks (tableBytes b 0) * d.blockInBytes, (d.saveTables env dev b).2
          ((d.lastInBlks - d.altBlocks (tableBytes b 0)) * d.blockInBytes + j) =
            b (d.blockInBytes + j) := by
  have hw : env.write 0 = none ∧ env.write 1 = none ∧ env.write 2 = none := by
    rw [saveTables_fst] at h
    split_ifs at h with hno
    simpa using hno
  obtain ⟨hw₀, hw₁, hw₂⟩ := hw
  obtain ⟨hroom, hlast, hlt, -⟩ := d.last_bounds
  have hb := d.blockInBytes_bounds
  obtain ⟨-, htb, ht32⟩ := altBlocks_bounds d ht
  have hsize : roundup32 (tableBytes b 0) d.blockInBytes =
      d.altBlocks (tableBytes b 0) * d.blockInBytes := d.roundup32_eq (by omega)
  generalize d.altBlocks (tableBytes b 0) = k at htb ht32 hsize ⊢
  have hdiv : k * d.blockInBytes / d.blockInBytes = k := Nat.mul_div_cancel _ (by omega)
  have hchunks : u32 (86016 / d.blockInBytes) * d.blockInBytes = 86016 := by
    have hbs := d.blockInBytes_eq
    rcases d.blockInSecs_cases with h' | h' | h' | h' <;> rw [hbs, h'] <;> decide
  have hone : u32 (d.blockInBytes / d.blockInBytes) * d.blockInBytes = d.blockInBytes := by
    rw [Nat.div_self (by omega), u32_of_lt (by omega), Nat.one_mul]
  have hstart : u32 (sub64 d.lastInBlks k) = d.lastInBlks - k := by
    rw [sub64_of_le (by omega) (by omega), u32_of_lt (by omega)]
  have hdev : (d.saveTables env dev b).2 = (d.gptSetProtectiveMbr env 3
      (copy (copy (copy dev d.blockInBytes b 0 86016) (d.lastInBlks * d.blockInBytes) b 0
        d.blockInBytes) ((d.lastInBlks - k) * d.blockInBytes) b d.blockInBytes
          (k * d.blockInBytes))).2 := by
    unfold Disk.saveTables Manager.gptSaveGpt
    rw [writeNative_none hw₀]
    simp only [Bool.false_eq_true, if_false]
    rw [writeNative_none hw₁]
    simp only [Bool.false_eq_true, if_false]
    rw [writeNative_none hw₂]
    simp only [Bool.false_eq_true, if_false]
    rw [hlba, hback, hsize, hchunks, hone, hdiv, u32_of_lt hlt, hstart, u32_of_lt (by omega : k < _),
      u32_of_lt (by omega : 1 < _), Nat.one_mul]
  have hsub : (d.lastInBlks - k) * d.blockInBytes =
      d.lastInBlks * d.blockInBytes - k * d.blockInBytes := Nat.sub_mul _ _ _
  have hle : k * d.blockInBytes ≤ d.lastInBlks * d.blockInBytes :=
    Nat.mul_le_mul_right _ (by omega)
  rw [hdev]
  generalize d.lastInBlks * d.blockInBytes = L at hroom hsub hle ⊢
  generalize (d.lastInBlks - k) * d.blockInBytes = E at hsub ⊢
  generalize k * d.blockInBytes = K at htb hsub hle ⊢
  refine ⟨fun j hj => ?_, fun j hj => ?_, fun j hj => ?_⟩
  · rw [gptSetProtectiveMbr_of_ge (by omega), copy_of_not_mem (by omega),
      copy_of_not_mem (by omega), copy_of_mem (by omega) (by omega), Nat.zero_add,
      Nat.add_sub_cancel_left]
  · rw [gptSetProtectiveMbr_of_ge (by omega), copy_of_not_mem (by omega),
      copy_of_mem (by omega) (by omega), Nat.zero_add, Nat.add_sub_cancel_left]
  · rw [gptSetProtectiveMbr_of_ge (by omega), copy_of_mem (by omega) (by omega),
      Nat.add_sub_cancel_left]

/-! ### The image on the device and in memory -/

/-- An image as the tool writes it: LU #0 names LBA 1 as its own place, and no header describes
more than 128 entries of 128 bytes. -/
structure Plain (buf : ℕ → UInt8) : Prop where
  lba : headGptHeader buf 0 = 1
  count : ∀ i < 3, headPartNumEntry buf (20480 * i) ≤ 128
  size : ∀ i < 3, headPartSizeEntry buf (20480 * i) = 128

/-- The entries that an image lists, unit by unit, as `Mgr.listing` gives them. -/
def Manager.imageListing (m : Manager) (buf : ℕ → UInt8) : List (List UInt8 × ℕ × List UInt8) :=
  (List.range 3).flatMap fun i =>
    (List.range (headPartNumEntry buf (20480 * i))).map fun k =>
      (entryName buf (m.entryAt (20480 * i) k), i, window buf (m.entryAt (20480 * i) k) 128)

/-- The image with LU #0's last entry ending at `v`. -/
def Manager.withEnd (m : Manager) (buf : ℕ → UInt8) (v : ℕ) : ℕ → UInt8 :=
  store64 buf (m.gptGetLastGptEntry buf 0 + 40) v

variable {mem : ℕ → UInt8}

theorem Plain.last_lt (h : Plain buf) (m : Manager) : m.gptGetLastGptEntry buf 0 + 128 ≤ 20480 := by
  have hb := m.blockInBytes_bounds
  have hn := h.count 0 (by omega)
  rw [Nat.mul_zero] at hn
  unfold Manager.gptGetLastGptEntry Manager.entryAt
  omega

theorem Plain.tableBytes_eq (h : Plain buf) : tableBytes buf 0 = 128 * headPartNumEntry buf 0 := by
  have hn := h.count 0 (by omega)
  have hs := h.size 0 (by omega)
  simp only [Nat.mul_zero] at hn hs
  rw [tableBytes, hs, u32_of_lt (by omega), Nat.mul_comm]

theorem updated_tableBytes : tableBytes (d.updated mem buf) 0 = tableBytes buf 0 := by
  have hn := @updated_load32 d buf mem 0 80 (by omega)
    fun j hj => by unfold Kept; omega
  have hs := @updated_load32 d buf mem 0 84 (by omega)
    fun j hj => by unfold Kept; omega
  exact congrArg₂ (fun x y => u32 (x * y)) hn hs

theorem updated_headGptHeader : headGptHeader (d.updated mem buf) 0 = headGptHeader buf 0 :=
  updated_load64 (i := 0) (a := 24) (by omega) fun j hj => by unfold Kept; omega

/-- The completed header gives the last block as the place of the alternate one. -/
theorem updated_headGptBackHeader : headGptBackHeader (d.updated mem buf) 0 = d.lastInBlks := by
  have hlt := d.last_bounds.2.2.1
  have hsame : load64 (d.updated mem buf) (0 + 32) =
      load64 (d.completed (incoming mem buf) (20480 + d.gptGetLastGptEntry buf 0)) (20480 + 32) :=
    congrArg ofLe (window_congr fun j hj => by
      rw [Nat.zero_add, Disk.updated, swapped_primary _ _ (by omega), Nat.add_assoc])
  rw [headGptBackHeader, hsame, Disk.completed]
  rw [load64_congr fun i hi hi' => d.completeCrcs_of_not_mem (by omega) (by omega),
    Disk.completeHeader, load64_store64_of_ne (by omega), load64_store64, ← u64,
    u64_of_lt (by omega)]

/-- Behind the backup chunk's start an update has the image again. -/
theorem updated_agree (h : Plain buf) : AgreeOn 20480 86016 (d.updated mem buf) (laid buf) := by
  intro i hl hh
  have hlast := h.last_lt d.toManager
  have hge := d.le_gptGetLastGptEntry buf 0
  rcases Nat.lt_or_ge i 40960 with hi | hi
  · obtain ⟨j, rfl⟩ := Nat.exists_eq_add_of_le hl
    rw [updated_backup d mem (by omega), laid_add]
  · rw [Disk.updated, swapped_rest _ _ hi,
      (completed_spec (by omega)).1 i (by unfold Touched; omega)]
    exact incoming_agree mem buf i hl hh

theorem newEnd_of_agree (h : Plain buf) (hb : AgreeOn 20480 86016 b (laid buf)) :
    d.newEnd b (20480 + d.gptGetLastGptEntry buf 0) = d.newEnd buf (d.gptGetLastGptEntry buf 0) := by
  have hlast := h.last_lt d.toManager
  have hrsvd : d.rsvdInBlks b (20480 + d.gptGetLastGptEntry buf 0) =
      d.rsvdInBlks buf (d.gptGetLastGptEntry buf 0) := by
    rw [rsvdInBlks_congr hb d.toManager (by omega) (by omega), Manager.rsvdInBlks,
      Manager.rsvdInBlks, entryName_laid]
  have hstart : entryStart b (20480 + d.gptGetLastGptEntry buf 0) =
      entryStart buf (d.gptGetLastGptEntry buf 0) := by
    rw [entryStart, entryStart,
      hb.load64 (a := 20480 + d.gptGetLastGptEntry buf 0 + 32) (by omega) (by omega),
      Nat.add_assoc, load64_laid]
  rw [Disk.newEnd, Disk.newEnd, hrsvd, hstart]

/-- **The entries after an update** are those of the image, LU #0's last one with its
computed end. -/
theorem updated_entries (h : Plain buf) {i a : ℕ} (hi : i < 3) (hl : 512 ≤ a) (hh : a < 20480) :
    d.updated mem buf (chunkOf i + a) =
      d.withEnd buf (d.newEnd buf (d.gptGetLastGptEntry buf 0)) (20480 * i + a) := by
  have hlast := h.last_lt d.toManager
  have hend := newEnd_of_agree (d := d) h (incoming_agree mem buf)
  unfold chunkOf
  split_ifs with h0
  · subst h0
    rw [Nat.mul_zero, Nat.zero_add, Disk.updated, swapped_primary _ _ hh, Disk.completed,
      d.completeCrcs_of_not_mem (by omega) (by omega),
      d.completeHeader_of_not_mem (by omega) (by omega), hend, Manager.withEnd, store64, store64]
    simp only [store]
    have hsame : incoming mem buf (20480 + a) = buf a := by
      rw [incoming_agree mem buf _ (by omega) (by omega), laid_add]
    by_cases hle : d.gptGetLastGptEntry buf 0 + 40 ≤ a
    · rw [if_pos hle, if_pos (by omega), hsame, show 20480 + a -
        (20480 + d.gptGetLastGptEntry buf 0 + 40) = a - (d.gptGetLastGptEntry buf 0 + 40) by omega]
    · rw [if_neg hle, if_neg (by omega), hsame]
  · rw [updated_agree h _ (by omega) (by omega), Manager.withEnd, store64_of_not_mem (by omega),
      laid, show 20480 * (i + 1) + a - 20480 = 20480 * i + a by omega]

/-! ### Booting from what was written -/

/-- What an update that returns 0 comes down to. -/
theorem gptUpdate_done {s s' : UpdateState} (h : d.gptUpdate env s buf = some (.done, s')) :
    (∀ i < 3, gptIsValid buf (20480 * i)) ∧ Passes d buf ∧
      (d.saveTables env s.dev (d.updated s.mgr.bdata buf)).1 = .done ∧
        s'.dev = (d.saveTables env s.dev (d.updated s.mgr.bdata buf)).2 := by
  by_cases hv : ∀ i < 3, gptIsValid buf (20480 * i)
  swap
  · have hbad : ∃ i < 3, ¬ gptIsValid buf (20480 * i) := by
      by_contra hno
      exact hv fun i hi => by
        by_contra hn
        exact hno ⟨i, hi, hn⟩
    rw [Disk.gptUpdate, if_pos hbad] at h
    simp at h
  by_cases hp : Passes d buf
  · rw [gptUpdate_of_passes hv hp] at h
    obtain ⟨h₁, rfl⟩ := Prod.mk.inj (Option.some.inj h)
    exact ⟨hv, hp, h₁, rfl⟩
  · rcases @gptUpdate_of_not_passes _ _ env s hv hp with hn | ⟨s₁, hs₁, -⟩
    · rw [hn] at h
      cases h
    · rw [hs₁] at h
      simp at h

section Boot

variable {l : ℕ → UInt8} (hl : AgreeOn 0 86016 l (d.updated mem buf))

include hl

theorem loaded_luEntries {i : ℕ} (hi : i < 3) :
    luEntries l i = headPartNumEntry buf (20480 * i) := by
  have hc : chunkOf i ≤ 61440 := by
    unfold chunkOf
    split_ifs <;> omega
  rw [← @updated_luEntries d _ _ mem hi, luEntries, luEntries, headPartNumEntry,
    headPartNumEntry, hl.load32 (a := chunkOf i + 80) (Nat.zero_le _) (by omega)]

theorem loaded_valid (hv : ∀ i < 3, gptIsValid buf (20480 * i)) {i : ℕ} (hi : i < 3) :
    gptIsValid l (chunkOf i) := by
  have hc : chunkOf i ≤ 61440 := by
    unfold chunkOf
    split_ifs <;> omega
  have hu := (@updated_valid d _ _ mem hi).2 (hv i hi)
  rw [gptIsValid, headSignature] at hu ⊢
  rw [hl.load64 (Nat.zero_le _) (by omega), hu]

/-- The cache of the loaded tables, not turned away. -/
theorem loaded_cache (hv : ∀ i < 3, gptIsValid buf (20480 * i)) (hp : Passes d buf) :
    d.buildEntryTableCache l =
      some (false, (List.range 3).flatMap fun i => d.cacheEntries l (chunkOf i) i) := by
  have hn : ∀ i < 3, luEntries l i = headPartNumEntry buf (20480 * i) :=
    fun i hi => loaded_luEntries hl hi
  have hfits : CacheFits d.toManager l := by
    refine ⟨fun i hi => by rw [hn i hi]; exact hp.fits.tables i hi, ?_⟩
    rw [hn 0 (by omega), hn 1 (by omega), hn 2 (by omega)]
    exact hp.fits.total
  rw [(buildEntryTableCache_eq fun i hi => loaded_valid hl hv hi).1 hfits, hn 0 (by omega),
    decide_eq_false hp.nonempty]

variable (h : Plain buf)

include h

theorem loaded_agree : AgreeOn 20480 86016 l (laid buf) :=
  AgreeOn.trans (fun i _ hi => hl i (Nat.zero_le _) hi) (updated_agree h)

/-- Completing what was loaded succeeds, and gives the first chunk again. -/
theorem loaded_complete (hp : Passes d buf) :
    d.gptCompleteUndecisableInfo l = .ok (d.completed l (20480 + d.gptGetLastGptEntry buf 0)) ∧
      window (d.completed l (20480 + d.gptGetLastGptEntry buf 0)) 0 20480 =
        window (d.completed l (20480 + d.gptGetLastGptEntry buf 0)) 20480 20480 := by
  have hlast := h.last_lt d.toManager
  have hge := d.le_gptGetLastGptEntry buf 0
  have hagree := loaded_agree hl h
  constructor
  · have hok := complete_of_agree (d := d) hagree
    dsimp only at hok
    rwa [if_neg (Nat.not_lt.2 hp.last_in), if_neg (Nat.not_lt.2 hp.last_fits),
      if_neg (not_or.2 ⟨Nat.not_lt.2 hp.table_in, Nat.not_lt.2 hp.head_in⟩)] at hok
  · have htable : tableBytes (incoming mem buf) 20480 = tableBytes buf 0 := by
      rw [tableBytes_congr (incoming_agree mem buf), tableBytes, tableBytes, headPartNumEntry,
        headPartSizeEntry, load32_laid, load32_laid]
      rfl
    have hsz : headSz (incoming mem buf) 20480 = headSz buf 0 := by
      rw [headSz, headSz, (incoming_agree mem buf).load32 (a := 20480 + 12) (by omega) (by omega),
        load32_laid]
    have hsame := completed_congr ((incoming_agree mem buf).trans hagree.symm) d
      (e := 20480 + d.gptGetLastGptEntry buf 0) (by omega) (by omega)
      (by have := hp.table_in; omega) (by have := hp.head_in; omega)
    refine window_congr fun j hj => ?_
    rw [Nat.zero_add, (completed_spec (by omega)).1 j (by unfold Touched; omega),
      hl j (Nat.zero_le _) (by omega), Disk.updated, swapped_primary _ _ hj]
    exact hsame _ (by omega) (by omega)

/-- The listing of the loaded tables. -/
theorem loaded_listing {n : ℕ} :
    (Mgr.mk (d.completed l (20480 + d.gptGetLastGptEntry buf 0)) n
      ((List.range 3).flatMap fun i => d.cacheEntries l (chunkOf i) i)).listing =
        d.imageListing (d.withEnd buf (d.newEnd buf (d.gptGetLastGptEntry buf 0))) := by
  have hlast := h.last_lt d.toManager
  have hge := d.le_gptGetLastGptEntry buf 0
  have hb := d.blockInBytes_bounds
  have hent : ∀ i < 3, ∀ a, 512 ≤ a → a < 20480 → l (chunkOf i + a) =
      d.withEnd buf (d.newEnd buf (d.gptGetLastGptEntry buf 0)) (20480 * i + a) := by
    intro i hi a ha ha'
    have hc : chunkOf i ≤ 61440 := by
      unfold chunkOf
      split_ifs <;> omega
    rw [hl _ (Nat.zero_le _) (by omega), updated_entries h hi ha ha']
  have hcomp : ∀ i < 3, ∀ a, 512 ≤ a → a < 20480 →
      d.completed l (20480 + d.gptGetLastGptEntry buf 0) (chunkOf i + a) = l (chunkOf i + a) := by
    intro i hi a ha ha'
    refine (completed_spec (by omega)).1 _ ?_
    unfold Touched chunkOf
    split_ifs <;> omega
  unfold Mgr.listing Manager.imageListing
  rw [List.map_flatMap]
  refine List.flatMap_congr fun i hi => ?_
  have hi3 := List.mem_range.1 hi
  have hcount := h.count i hi3
  have hnum : headPartNumEntry (d.withEnd buf (d.newEnd buf (d.gptGetLastGptEntry buf 0)))
      (20480 * i) = headPartNumEntry buf (20480 * i) :=
    load32_congr fun j hj hj' => store64_of_not_mem (by omega)
  rw [Manager.cacheEntries, ← luEntries, loaded_luEntries hl hi3, hnum, List.map_map]
  refine List.map_congr_left fun k hk => ?_
  have hk' := List.mem_range.1 hk
  have hat : ∀ base x, d.entryAt base k + x = base + (d.blockInBytes + 128 * k + x) :=
    fun base x => by unfold Manager.entryAt; omega
  have hname : entryName l (d.entryAt (chunkOf i) k) = entryName
      (d.withEnd buf (d.newEnd buf (d.gptGetLastGptEntry buf 0))) (d.entryAt (20480 * i) k) :=
    List.map_congr_left fun j hj => by
      have hj' := List.mem_range.1 hj
      rw [Nat.add_assoc, Nat.add_assoc, hat, hat, hent i hi3 _ (by omega) (by omega)]
  have hwin : window (d.completed l (20480 + d.gptGetLastGptEntry buf 0))
      (d.entryAt (chunkOf i) k) 128 = window (d.withEnd buf
        (d.newEnd buf (d.gptGetLastGptEntry buf 0))) (d.entryAt (20480 * i) k) 128 :=
    window_congr fun j hj => by
      rw [hat, hat, hcomp i hi3 _ (by omega) (by omega), hent i hi3 _ (by omega) (by omega)]
  simp only [Function.comp, Mgr.deref, hname, hwin]

end Boot

/-- The blocks `[first, last]` reach into the alternate header or into its `t` bytes of
entries. -/
def Disk.AltOverlaps (d : Disk) (t first last : ℕ) : Prop :=
  ∃ x, first ≤ x ∧ x ≤ last ∧ d.lastInBlks - d.altBlocks t ≤ x ∧ x ≤ d.lastInBlks

/-- A last partition that starts on the device ends where the reserved area begins. -/
theorem newEnd_eq {e : ℕ} (hfit : d.rsvdInBlks buf e ≤ d.partInBlks (entryStart buf e))
    (hstart : entryStart buf e ≤ d.blockCount) :
    d.newEnd buf e + 1 + d.rsvdInBlks buf e = d.blockCount := by
  obtain ⟨hroom, -, hlt, hcount⟩ := d.last_bounds
  have hc := d.count_lt
  have hpart : d.partInBlks (entryStart buf e) = d.blockCount - entryStart buf e := by
    rw [Disk.partInBlks, ← hcount, u32_of_lt hc, sub64_of_le (by omega) hstart,
      u32_of_lt (by omega)]
  -- the reserved area is smaller than the device
  have hrsvd : d.rsvdInBlks buf e < d.blockCount := by
    by_contra hle
    have hmul := Nat.mul_le_mul_right d.blockInBytes (Nat.le_of_not_lt hle)
    rw [hcount, Nat.add_mul, Nat.one_mul] at hmul
    rcases d.rsvdInBlks_eq buf e with h | h <;> omega
  rw [hpart] at hfit
  rw [Disk.newEnd, hpart, sub64_of_le (by omega) (by omega)]
  omega

/-- The alternate table fits into the reserved area. -/
theorem altBlocks_lt_rsvdInBlks (d : Disk) {t : ℕ} (ht : t ≤ 16384) (b : ℕ → UInt8) (e : ℕ) :
    d.altBlocks t + 1 ≤ d.rsvdInBlks b e := by
  obtain ⟨-, hsmall, -⟩ := altBlocks_bounds d ht
  have hb := d.blockInBytes_bounds
  by_contra hlt
  have hmul := Nat.mul_le_mul_right d.blockInBytes (show d.rsvdInBlks b e ≤ d.altBlocks t by omega)
  rcases d.rsvdInBlks_eq b e with h | h <;> omega

/-- **An update and a boot.**  When `gpt_update` returns 0, `gpt_init` accepts what it finds
on the device: the comparison with the second GPT succeeds, and the cache lists the
entries of the image, the last one of LU #0 with its computed end.  The completed header and
its entries are at the end of the device as well.  When that last partition starts on the
device, it ends where the reserved area begins, and no partition of LU #0 that ends there or
before reaches into the alternate table. -/
theorem gpt_update_then_init (d : Disk) (env : Env) (s s' : UpdateState) (buf : ℕ → UInt8)
    (himg : Plain buf) (h : d.gptUpdate env s buf = some (.done, s')) :
    ∃ g, d.gptInit (some s'.dev) = some (true, g) ∧ g.listing = d.imageListing
        (d.withEnd buf (d.newEnd buf (d.gptGetLastGptEntry buf 0))) ∧
      (∀ j < d.blockInBytes, s'.dev (d.lastInBlks * d.blockInBytes + j) = g.bdata j) ∧
      (∀ j < d.altBlocks (128 * headPartNumEntry buf 0) * d.blockInBytes,
        s'.dev ((d.lastInBlks - d.altBlocks (128 * headPartNumEntry buf 0)) * d.blockInBytes + j) =
          g.bdata (d.blockInBytes + j)) ∧
      (entryStart buf (d.gptGetLastGptEntry buf 0) ≤ d.blockCount →
        d.newEnd buf (d.gptGetLastGptEntry buf 0) + 1 +
            d.rsvdInBlks buf (d.gptGetLastGptEntry buf 0) = d.blockCount ∧
          ∀ first last, last ≤ d.newEnd buf (d.gptGetLastGptEntry buf 0) →
            ¬ d.AltOverlaps (128 * headPartNumEntry buf 0) first last) := by
  obtain ⟨hv, hp, hdone, hdev⟩ := gptUpdate_done h
  have hcount := himg.count 0 (by omega)
  rw [Nat.mul_zero] at hcount
  have ht : tableBytes (d.updated s.mgr.bdata buf) 0 = 128 * headPartNumEntry buf 0 := by
    rw [updated_tableBytes, himg.tableBytes_eq]
  obtain ⟨hchunks, hhead, hentries⟩ := saveTables_done hdone
    (by rw [updated_headGptHeader]; exact himg.lba) updated_headGptBackHeader (by omega)
  rw [← hdev] at hchunks hhead hentries
  rw [ht] at hentries
  obtain ⟨htable, hsmall, -⟩ := altBlocks_bounds d (t := 128 * headPartNumEntry buf 0) (by omega)
  have hb := d.blockInBytes_bounds
  have hl : AgreeOn 0 86016 (copy (fun _ => 0) 0 s'.dev d.blockInBytes 86016)
      (d.updated s.mgr.bdata buf) := fun i _ hi => by
    rw [copy_of_mem (Nat.zero_le _) (by omega), Nat.sub_zero, hchunks i hi]
  obtain ⟨hok, hcmp⟩ := loaded_complete hl himg hp
  have hlisting := fun n => loaded_listing (n := n) hl himg
  have hcache := loaded_cache hl hv hp
  obtain ⟨l, hload⟩ : ∃ l, l = copy (fun _ => 0) 0 s'.dev d.blockInBytes 86016 := ⟨_, rfl⟩
  rw [← hload] at hl hok hcmp hlisting hcache
  have hlast := himg.last_lt d.toManager
  have hge := d.le_gptGetLastGptEntry buf 0
  have hbdata : ∀ j < 20480, d.completed l (20480 + d.gptGetLastGptEntry buf 0) j =
      d.updated s.mgr.bdata buf j := fun j hj => by
    rw [(completed_spec (by omega)).1 j (by unfold Touched; omega), hl j (Nat.zero_le _) (by omega)]
  refine ⟨⟨d.completed l (20480 + d.gptGetLastGptEntry buf 0),
    ((List.range 3).flatMap fun i => d.cacheEntries l (chunkOf i) i).length,
    (List.range 3).flatMap fun i => d.cacheEntries l (chunkOf i) i⟩, ?_, hlisting _, ?_, ?_, ?_⟩
  · unfold Disk.gptInit
    dsimp only
    rw [← hload, hcache]
    simp only [Option.bind_some, Bool.false_eq_true, if_false, hok]
    rw [if_neg (not_not.2 hcmp)]
  · exact fun j hj => (hhead j hj).trans (hbdata j (by omega)).symm
  · exact fun j hj => (hentries j hj).trans (hbdata _ (by omega)).symm
  · intro hstart
    have hend := newEnd_eq hp.last_fits hstart
    refine ⟨hend, fun first last hle => ?_⟩
    rintro ⟨x, -, hx, hx', -⟩
    have hrsvd := altBlocks_lt_rsvdInBlks d (t := 128 * headPartNumEntry buf 0) (by omega) buf
      (d.gptGetLastGptEntry buf 0)
    have hcnt := d.last_bounds.2.2.2
    omega

/-! ### An image that the update takes as it is -/

/-- A UFS device of 4 MiB. -/
def smallDisk : Disk where
  devId := .ufs
  blockInBytes := 4096
  sector_dvd := ufsManager.sector_dvd
  block_dvd := ufsManager.block_dvd
  blockCount := 1024
  count_lt := by decide
  room := by decide

/-- A header of `n` entries at `base`. -/
def withHeader (b : ℕ → UInt8) (base n : ℕ) : ℕ → UInt8 :=
  let b := store64 b base gptHeaderSignature
  let b := store32 b (base + 12) 92
  let b := store64 b (base + 24) 1
  store32 (store32 b (base + 80) n) (base + 84) 128

/-- Two partitions on LU #0, the first of which reaches to the end of the device. -/
def greedyImage : ℕ → UInt8 :=
  let b := withHeader (withHeader (withHeader (fun _ => 0) 0 2) 20480 0) 40960 0
  let b := store64 (store64 b (4096 + 32) 100) (4096 + 40) 1023
  store64 (store64 b (4224 + 32) 200) (4224 + 40) 300

/-- A device without failures. -/
def goodEnv : Env := ⟨fun _ => none, true⟩

theorem greedyImage_plain : Plain greedyImage where
  lba := by decide +kernel
  count := by decide +kernel
  size := by decide +kernel

theorem greedyImage_valid : ∀ i < 3, gptIsValid greedyImage (20480 * i) := by decide +kernel

theorem greedyImage_passes : Passes smallDisk greedyImage where
  last_in := by decide +kernel
  last_fits := by decide +kernel
  table_in := by decide +kernel
  head_in := by decide +kernel
  fits := ⟨by decide +kernel, by decide +kernel⟩
  nonempty := by decide +kernel

/-- The update of an empty manager with it. -/
theorem greedyImage_update (s : UpdateState) :
    ∃ s', smallDisk.gptUpdate goodEnv s greedyImage = some (.done, s') := by
  have hdone : (smallDisk.saveTables goodEnv s.dev
      (smallDisk.updated s.mgr.bdata greedyImage)).1 = .done := by
    rw [saveTables_fst]
    rfl
  have hup := @gptUpdate_of_passes _ _ goodEnv s greedyImage_valid greedyImage_passes
  rw [hdone] at hup
  exact ⟨_, hup⟩

/-- The update is done, and the boot after it finds the table on the device. -/
theorem gpt_update_then_init_greedyImage :
    ∃ s' g, smallDisk.gptUpdate goodEnv ⟨⟨fun _ => 0, 0, []⟩, fun _ => 0⟩ greedyImage =
        some (.done, s') ∧ smallDisk.gptInit (some s'.dev) = some (true, g) := by
  obtain ⟨s', hs'⟩ := greedyImage_update ⟨⟨fun _ => 0, 0, []⟩, fun _ => 0⟩
  obtain ⟨g, hg, -⟩ := gpt_update_then_init smallDisk goodEnv _ s' greedyImage greedyImage_plain hs'
  exact ⟨s', g, hs', hg⟩

/-- **The other partitions are not checked:** the image is accepted, by the update and by
the boot after it, and its first partition has the alternate table inside. -/
theorem gpt_update_keeps_overlap :
    ¬ ∀ (d : Disk) (env : Env) (s s' : UpdateState) (buf : ℕ → UInt8), Plain buf →
      d.gptUpdate env s buf = some (.done, s') →
        let e := d.gptGetLastGptEntry buf 0
        let img := d.withEnd buf (d.blockCount - d.rsvdInBlks buf e - 1)
        ∃ g, d.gptInit (some s'.dev) = some (true, g) ∧ g.listing = d.imageListing img ∧
          ∀ k < headPartNumEntry buf 0,
            ¬ d.AltOverlaps (128 * headPartNumEntry buf 0) (entryStart img (d.entryAt 0 k))
              (entryEnd img (d.entryAt 0 k)) := by
  intro h
  obtain ⟨s', hs'⟩ := greedyImage_update ⟨⟨fun _ => 0, 0, []⟩, fun _ => 0⟩
  obtain ⟨g, -, -, hno⟩ := h smallDisk goodEnv _ s' greedyImage greedyImage_plain hs'
  refine hno 0 (by decide +kernel) ⟨1023, ?_, ?_, ?_, ?_⟩
  all_goals decide +kernel

end Gpt
end LittleKernel
