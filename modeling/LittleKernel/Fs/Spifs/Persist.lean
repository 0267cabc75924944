/-
# The file system across mounts and power failures

`Stored` relates a mounted file system to its device: the copy of the table that was
written last holds the list in memory, and the other copy is older or damaged.  The
calls keep it, and a mount finds the list again (`file_table_sound`), as long as

  - the pages hold more than one slot and a table has fewer than `2 ^ 32` bytes,
  - no file is created whose length rounds up to `2 ^ 32`,
  - no write reaches past the first 4 GiB of the device, where its address wraps,
  - the generation does not come round to 0, which marks a damaged table.

A commit that stops after any of its page writes, or inside one, leaves the old list
or the new one (`commit_atomic`).  For this less is needed of the other copy, which an earlier
commit may have left torn: its generation is not the newer one (`Recoverable`).
-/

import LittleKernel.Fs.Spifs.Toc

namespace LittleKernel
namespace Spifs

open Bytes Word

variable {g : Geometry} {m n : ℕ} {dev dev' : Device} {pos : TocPosition} {files : List TocFile}
  {s : SpifsT}

/-! ### What depends on which pages -/

theorem slotAt_congr {t : ℕ}
    (h : dev' (tocPageAt g pos (t / g.perPage)) = dev (tocPageAt g pos (t / g.perPage))) :
    slotAt g dev' pos t = slotAt g dev pos t := by
  rw [slotAt, slotAt, h]

/-- The header is in the first page of its copy. -/
theorem headerAt_congr (h : dev' (tocPageAt g pos 0) = dev (tocPageAt g pos 0)) :
    headerAt g dev' pos = headerAt g dev pos := by
  have hslot : slotAt g dev' pos 0 = slotAt g dev pos 0 := slotAt_congr (by rwa [Nat.zero_div])
  rw [headerAt, headerAt, hslot]

/-- A table is in the pages of its copy. -/
theorem holds_congr {image : List (List UInt8)} (himage : image.length = m * g.perPage)
    (h : ∀ j < m, dev' (tocPageAt g pos j) = dev (tocPageAt g pos j))
    (hold : Holds g dev pos 0 image) : Holds g dev' pos 0 image := by
  rw [holds_iff] at hold ⊢
  intro i hi
  rw [← hold i hi]
  refine slotAt_congr (h _ ?_)
  exact Nat.div_lt_of_lt_mul (by rw [Nat.mul_comm]; omega)

/-! ### A mounted file system and its device -/

/-- The device holds the table in memory, and nothing newer. -/
structure Stored (g : Geometry) (m : ℕ) (s : SpifsT) (dev : Device) : Prop where
  layout : Layout g m s.numEntries
  table : Table g m s.numEntries s.files
  generation_pos : 0 < s.generation
  generation_lt : s.generation < 2 ^ 32
  current : Holds g dev s.tocPosition 0 (tocImage s.generation s.numEntries s.files)
  other : (headerAt g dev s.tocPosition.other).magic = fsMagic →
    (headerAt g dev s.tocPosition.other).generation < s.generation

theorem Layout.length_image (hl : Layout g m n) (generation : ℕ) (files : List TocFile) :
    (tocImage generation n files).length = m * g.perPage := by
  rw [length_tocImage, hl.slots_eq]

/-- The device holds the table in memory in one copy, and `get_toc_generation` takes the
other one for older or damaged.  Less than `Stored`: a commit that was cut short may have
left the header of the next generation in the other copy. -/
structure Recoverable (g : Geometry) (m : ℕ) (s : SpifsT) (dev : Device) : Prop where
  layout : Layout g m s.numEntries
  table : Table g m s.numEntries s.files
  generation_lt : s.generation < 2 ^ 32
  current : Holds g dev s.tocPosition 0 (tocImage s.generation s.numEntries s.files)
  other : getTocGeneration g dev s.tocPosition.other < s.generation

theorem Stored.recoverable (h : Stored g m s dev) : Recoverable g m s dev := by
  refine ⟨h.layout, h.table, h.generation_lt, h.current, ?_⟩
  have hpos := h.generation_pos
  have hle : getTocGeneration g dev s.tocPosition.other ≤ s.generation - 1 := by
    refine getTocGeneration_le h.layout fun hmagic => ?_
    have := h.other hmagic
    omega
  omega

/-- **A mount rebuilds the table of the current copy.** -/
theorem Recoverable.mount (h : Recoverable g m s dev) : spifsMount g dev = .ok s :=
  spifsMount_of_holds h.layout h.generation_lt h.current h.other h.table.ok h.table.chain
    h.table.count

/-- Pages outside the current copy may change as long as the other copy does not get newer. -/
theorem Recoverable.of_other (h : Recoverable g m s dev)
    (hcurrent : ∀ j < m, dev' (tocPageAt g s.tocPosition j) = dev (tocPageAt g s.tocPosition j))
    (hother : getTocGeneration g dev' s.tocPosition.other < s.generation) :
    Recoverable g m s dev' :=
  ⟨h.layout, h.table, h.generation_lt,
    holds_congr (h.layout.length_image _ _) hcurrent h.current, hother⟩

/-- **A mount rebuilds the file system in memory.** -/
theorem Stored.mount (h : Stored g m s dev) : spifsMount g dev = .ok s :=
  h.recoverable.mount

/-- Writes elsewhere leave both copies alone. -/
theorem Stored.frame (h : Stored g m s dev)
    (hsame : ∀ pos, ∀ j < m, dev' (tocPageAt g pos j) = dev (tocPageAt g pos j)) :
    Stored g m s dev' := by
  have hheader := headerAt_congr (hsame s.tocPosition.other 0 h.layout.pages_pos)
  refine ⟨h.layout, h.table, h.generation_pos, h.generation_lt, ?_, ?_⟩
  · exact holds_congr (h.layout.length_image _ _) (hsame _) h.current
  · rw [hheader]
    exact h.other

@[simp] theorem TocPosition.other_other (pos : TocPosition) : pos.other.other = pos := by
  cases pos <;> rfl

/-- **`spifs_commit_toc`** writes the list in memory to the copy it was not in, and
leaves the first page of the other copy alone. -/
theorem commit_holds (lvl : ℕ) (dev : Device) (hl : Layout g m s.numEntries)
    (htwo : 2 ≤ g.perPage) (hgen : s.generation + 1 < 2 ^ 32) :
    ∃ dev', spifsCommitToc lvl g s dev = some
        ({ s with generation := s.generation + 1, tocPosition := s.tocPosition.other }, dev') ∧
      Holds g dev' s.tocPosition.other 0 (tocImage (s.generation + 1) s.numEntries s.files) ∧
      headerAt g dev' s.tocPosition = headerAt g dev s.tocPosition := by
  obtain ⟨writes, hw, hpages⟩ := commitWrites_spec lvl hl htwo
  rw [u32_of_lt hgen] at hpages
  have himage := hl.length_image (s.generation + 1) s.files
  refine ⟨applyWrites dev writes, ?_, holds_applyWrites hl himage hpages, headerAt_congr ?_⟩
  · rw [spifsCommitToc, hw, Option.map_some, u32_of_lt hgen]
  · refine applyWrites_of_not_mem fun w hwm => ?_
    obtain ⟨j, hj, hjw⟩ := commitWrites_mem hl hw hwm
    rw [hjw]
    exact tocPageAt_ne_other hl hj hl.pages_pos s.tocPosition

/-- A commit stores the list in memory, where the copy it does not write is not newer
than that list. -/
theorem commit_stored (lvl : ℕ) (hl : Layout g m s.numEntries) (htwo : 2 ≤ g.perPage)
    (ht : Table g m s.numEntries s.files) (hgen : s.generation + 1 < 2 ^ 32)
    (hheader : (headerAt g dev s.tocPosition).magic = fsMagic →
      (headerAt g dev s.tocPosition).generation ≤ s.generation) :
    ∃ dev', spifsCommitToc lvl g s dev = some
        ({ s with generation := s.generation + 1, tocPosition := s.tocPosition.other }, dev') ∧
      Stored g m { s with generation := s.generation + 1, tocPosition := s.tocPosition.other }
        dev' := by
  obtain ⟨dev', hcommit, hholds, hkeep⟩ := commit_holds lvl dev hl htwo hgen
  refine ⟨dev', hcommit, hl, ht, Nat.succ_pos _, hgen, hholds, ?_⟩
  simp only [TocPosition.other_other, hkeep]
  intro hmagic
  exact Nat.lt_succ_of_le (hheader hmagic)

/-- The header of the current copy. -/
theorem Stored.header (h : Stored g m s dev) :
    headerAt g dev s.tocPosition = ⟨fsMagic, fsVersion, s.numEntries, s.generation⟩ :=
  (getTocGeneration_of_holds h.layout h.generation_lt h.current).1

/-- A commit after a change of the list. -/
theorem Stored.commit (h : Stored g m s dev) (lvl : ℕ) (htwo : 2 ≤ g.perPage)
    (ht : Table g m s.numEntries files) (hgen : s.generation + 1 < 2 ^ 32)
    (hheader : headerAt g dev' s.tocPosition = headerAt g dev s.tocPosition ∨
      (headerAt g dev' s.tocPosition).magic ≠ fsMagic) :
    ∃ s' dev'', spifsCommitToc lvl g { s with files := files } dev' = some (s', dev'') ∧
      Stored g m s' dev'' := by
  have hle : (headerAt g dev' s.tocPosition).magic = fsMagic →
      (headerAt g dev' s.tocPosition).generation ≤ s.generation := by
    intro hmagic
    rcases hheader with hsame | hne
    · rw [hsame, h.header]
    · exact absurd hmagic hne
  obtain ⟨dev'', hcommit, hstored⟩ :=
    commit_stored (s := { s with files := files }) lvl h.layout htwo ht hgen hle
  exact ⟨_, dev'', hcommit, hstored⟩

/-! ### Data pages -/

variable {buf : List UInt8}

theorem writeFullPages_of_not_mem {k t p : ℕ} (ht : t + k < 2 ^ 32)
    (hp : p < t ∨ t + k ≤ p) : writeFullPages g k dev t buf p = dev p := by
  induction k generalizing dev t buf with
  | zero => rfl
  | succ k ih =>
    rw [writeFullPages, u32_of_lt (by omega), ih (by omega) (by omega), spifsWritePage,
      Function.update_of_ne (by omega)]

/-- The bytes from an address to the end of its page. -/
theorem sub32_roundup {a : ℕ} (ha : a < 2 ^ 32) (hoff : a % g.pageSize ≠ 0) :
    sub32 (roundup a g.pageSize) a = (a / g.pageSize + 1) * g.pageSize - a := by
  have hps := g.pageSize_pos
  have hmod := Nat.mod_lt a hps
  have hdiv := Nat.div_add_mod a g.pageSize
  have hup : (a + (g.pageSize - 1)) / g.pageSize = a / g.pageSize + 1 := by
    refine ((Nat.div_mod_unique hps).2 ⟨?_, show a % g.pageSize - 1 < g.pageSize by omega⟩).1
    rw [Nat.mul_add]
    omega
  have hnext : (a / g.pageSize + 1) * g.pageSize = g.pageSize * (a / g.pageSize) + g.pageSize := by
    rw [Nat.add_mul, Nat.one_mul, Nat.mul_comm]
  -- the next page starts at `2 ^ 32` at the latest
  have hpow : 2 ^ 32 = g.pageSize * 2 ^ (32 - g.pageShift) := by
    rw [Geometry.pageSize, ← pow_add]
    congr 1
    have := g.pageShift_le
    omega
  have hlt : a / g.pageSize < 2 ^ (32 - g.pageShift) := Nat.div_lt_of_lt_mul (hpow ▸ ha)
  have hle : g.pageSize * (a / g.pageSize) + g.pageSize ≤ 2 ^ 32 := by
    rw [hpow, ← Nat.mul_succ]
    exact Nat.mul_le_mul_left _ hlt
  rw [roundup, hup, hnext, sub32, u32, u32, u32, u32]
  omega

theorem writeRest_nil (t : ℕ) : writeRest g dev t [] = dev := by
  simp [writeRest, writeFullPages]

/-- Whole pages and a trailing one change no page outside of theirs. -/
theorem writeRest_of_not_mem {t p last : ℕ}
    (hlast : t * g.pageSize + buf.length ≤ last * g.pageSize) (hlast32 : last < 2 ^ 32)
    (hp : p < t ∨ last ≤ p) : writeRest g dev t buf p = dev p := by
  have hps := g.pageSize_pos
  have hdiv := Nat.div_mul_le_self buf.length g.pageSize
  rw [writeRest]
  generalize buf.length / g.pageSize = k at hdiv ⊢
  have hmul := Nat.add_mul t k g.pageSize
  have hle : t + k ≤ last := Nat.le_of_mul_le_mul_right (show _ ≤ last * g.pageSize by omega) hps
  have hfull : writeFullPages g k dev t buf p = dev p :=
    writeFullPages_of_not_mem (by omega) (by omega)
  split_ifs with hnil
  · exact hfull
  · -- the trailing page has bytes of the buffer
    have hlen : k * g.pageSize < buf.length := by
      by_contra hge
      exact hnil (List.drop_eq_nil_of_le (by omega))
    have hlt : t + k < last := Nat.lt_of_mul_lt_mul_right (show _ < last * g.pageSize by omega)
    rw [u32_of_lt (by omega), spifsWritePage, Function.update_of_ne (by omega), hfull]

/-- **`spifs_write`** changes no page outside its file. -/
theorem writePages_of_not_mem {a p first last : ℕ} (ha : a < 2 ^ 32)
    (hfirst : first * g.pageSize ≤ a) (hlast : a + buf.length ≤ last * g.pageSize)
    (hlast32 : last < 2 ^ 32) (hp : p < first ∨ last ≤ p) : writePages g dev a buf p = dev p := by
  have hps := g.pageSize_pos
  have hdiv := Nat.div_add_mod a g.pageSize
  have hpage : first ≤ a / g.pageSize := (Nat.le_div_iff_mul_le hps).2 hfirst
  rw [Nat.mul_comm] at hdiv
  rw [writePages]
  dsimp only
  split_ifs with hoff
  · exact writeRest_of_not_mem (by omega) hlast32 (by omega)
  · have hnext : (a / g.pageSize + 1) * g.pageSize = a / g.pageSize * g.pageSize + g.pageSize := by
      rw [Nat.add_mul, Nat.one_mul]
    have hmod := Nat.mod_lt a hps
    have hlt : a / g.pageSize < last :=
      Nat.lt_of_mul_lt_mul_right (show _ < last * g.pageSize by omega)
    have hlead (page : Page) : spifsWritePage dev (a / g.pageSize) page p = dev p := by
      rw [spifsWritePage, Function.update_of_ne (by omega)]
    rw [sub32_roundup ha hoff, u32_of_lt (by omega)]
    rcases Nat.lt_or_ge ((a / g.pageSize + 1) * g.pageSize - a) buf.length with hmore | hless
    · rw [min_eq_right hmore.le]
      refine (writeRest_of_not_mem ?_ hlast32 (by omega)).trans (hlead _)
      rw [List.length_drop]
      omega
    · rw [min_eq_left hless, List.drop_length, writeRest_nil]
      exact hlead _

/-! ### The calls -/

/-- A page that was erased does not start a table. -/
theorem erased_magic_ne (b : UInt8) (h : dev (tocPageAt g pos 0) = fun _ => b) :
    (headerAt g dev pos).magic ≠ fsMagic := by
  have hslot : slotAt g dev pos 0 = List.replicate 32 b := by
    simp [slotAt, Memory.window, h, List.map_const']
  have hb := b.toNat_lt
  rw [headerAt, hslot, TocHeader.ofBytes, fsMagic]
  simp only [field, ofLe, List.range, List.range.loop, List.map, List.getD, List.replicate,
    List.getElem?_cons_zero, List.getElem?_cons_succ, Option.getD_some, Nat.zero_add]
  omega

/-- **`spifs_create`.** -/
theorem Stored.create (h : Stored g m s dev) (lvl : ℕ) (htwo : 2 ≤ g.perPage) (name : CString)
    (len : ℕ) (hgen : s.generation + 1 < 2 ^ 32)
    (hlen : createCheck s (trimName name) len = .noError → s.files.length < s.numEntries →
      len + g.pageSize ≤ 2 ^ 32) :
    ∃ s' dev' status, spifsCreate lvl g s dev name len = some (s', dev', status) ∧
      Stored g m s' dev' := by
  unfold spifsCreate
  dsimp only
  generalize hcap : (if len = 0 then g.pageSize else roundup len g.pageSize) = capacity
  split_ifs with hcheck hassert hfull hrun
  · exact ⟨s, dev, _, rfl, h⟩
  · exact ⟨s, dev, _, rfl, h⟩
  · exact ⟨s, dev, _, rfl, h⟩
  · have hcheck := not_not.1 hcheck
    have ht := h.table.create hcheck (by omega) (hlen hcheck (by omega)) hcap.symm hrun
    generalize hdev : erasePages g dev (u32 (findOpenRun g s.files capacity * g.pageSize) / g.pageSize)
      (capacity / g.pageSize) = dev₁
    -- the erase hits the header page of the current copy or it does not
    have hheader : headerAt g dev₁ s.tocPosition = headerAt g dev s.tocPosition ∨
        (headerAt g dev₁ s.tocPosition).magic ≠ fsMagic := by
      by_cases hhit : dev₁ (tocPageAt g s.tocPosition 0) = fun _ => g.eraseByte
      · exact .inr (erased_magic_ne g.eraseByte hhit)
      · refine .inl (headerAt_congr ?_)
        rw [← hdev, erasePages] at hhit ⊢
        split_ifs at hhit ⊢ with hin
        · exact absurd rfl hhit
        · rfl
    obtain ⟨s', dev'', hcommit, hs'⟩ := h.commit lvl htwo ht hgen hheader
    exact ⟨s', dev'', .noError, by rw [hcommit]; rfl, hs'⟩
  · exact absurd (.of h.table.count) hassert

/-- **`spifs_remove`.** -/
theorem Stored.remove (h : Stored g m s dev) (lvl : ℕ) (htwo : 2 ≤ g.perPage) (name : CString)
    (hgen : s.generation + 1 < 2 ^ 32) :
    ∃ s' dev' status, spifsRemove lvl g s dev name = some (s', dev', status) ∧
      Stored g m s' dev' := by
  unfold spifsRemove
  split
  · exact ⟨s, dev, _, rfl, h⟩
  · rename_i i hi
    obtain ⟨j, rfl, hj⟩ := findFile_eq_some hi
    obtain ⟨s', dev', hcommit, hs'⟩ := h.commit lvl htwo (h.table.erase hj) hgen (.inl rfl)
    exact ⟨s', dev', .noError, by rw [hcommit]; rfl, hs'⟩

/-- A file that was found is in the list. -/
theorem Table.getElem?_of_find (h : Table g m n files) {j : ℕ} (hj : j < (middle files).length) :
    ∃ file, files[j + 1]? = some file := by
  refine ⟨(middle files)[j], ?_⟩
  conv_lhs => rw [h.shape]
  rw [List.getElem?_cons_succ, List.getElem?_append_left hj, List.getElem?_eq_getElem hj]

/-- **`spifs_truncate`.** -/
theorem Stored.truncate (h : Stored g m s dev) (lvl : ℕ) (htwo : 2 ≤ g.perPage) {i : ℕ}
    {name : CString} (hi : findFile s.files name = some i) (len : ℕ)
    (hgen : s.generation + 1 < 2 ^ 32) :
    ∃ s' dev' status, spifsTruncate lvl g s dev i len = some (s', dev', status) ∧
      Stored g m s' dev' := by
  obtain ⟨j, rfl, hj⟩ := findFile_eq_some hi
  obtain ⟨file, hfile⟩ := h.table.getElem?_of_find hj
  unfold spifsTruncate
  rw [hfile]
  dsimp only
  split_ifs with hgrow
  · exact ⟨s, dev, _, rfl, h⟩
  · have hle := (h.table.ok file (List.mem_of_getElem? hfile)).length_le
    have ht := h.table.withLength hj hfile (show len ≤ file.capacity by omega)
    obtain ⟨s', dev', hcommit, hs'⟩ := h.commit lvl htwo ht hgen (.inl rfl)
    exact ⟨s', dev', .noError, by rw [hcommit]; rfl, hs'⟩

/-- A file in the list shares no page with the tables. -/
theorem Table.middle_range (h : Table g m n files) (hl : Layout g m n) {j : ℕ}
    (hj : j < (middle files).length) {file : TocFile} (hfile : files[j + 1]? = some file) :
    m ≤ file.pageIdx ∧ file.pageIdx + file.pages g + m ≤ g.pageCount := by
  have hfits := hl.fits
  have hcount := g.pageCount_lt_two_pow
  have hmem : file ∈ middle files := by
    rw [h.shape, List.getElem?_cons_succ, List.getElem?_append_left hj] at hfile
    exact List.mem_of_getElem? hfile
  have hchain := h.chain
  rw [h.shape] at hchain
  obtain ⟨hfront, hrest⟩ := List.pairwise_cons.1 hchain
  have hback := (List.pairwise_append.1 hrest).2.2 file hmem _ (List.mem_singleton_self _)
  have hfront := hfront file (List.mem_append_left _ hmem)
  have hsub : sub32 g.pageCount m = g.pageCount - m := sub32_of_le hcount (by omega)
  obtain ⟨-, hfpages, hfidx⟩ := tocEntry_ok 0 frontTocLabel hl.pages_pos hl.small (by omega)
    (by decide)
  obtain ⟨-, -, hbidx⟩ := tocEntry_ok (sub32 g.pageCount m) backTocLabel hl.pages_pos hl.small
    (by omega) (by decide)
  rw [Before, frontToc, hfidx, hfpages] at hfront
  rw [Before, backToc, hbidx] at hback
  omega

/-- The pages that `spifs_write` changes are not those of a table. -/
theorem Stored.writePages (h : Stored g m s dev) {file : TocFile} {off : ℕ}
    (hok : FileOk g file) (hlo : m ≤ file.pageIdx)
    (hhi : file.pageIdx + file.pages g + m ≤ g.pageCount)
    (haddr : file.pageIdx * g.pageSize + (off + buf.length) ≤ 2 ^ 32)
    (hcap : off + buf.length ≤ file.capacity) :
    Stored g m s (writePages g dev (u32 (off + file.pageIdx * g.pageSize)) buf) := by
  have hcount := g.pageCount_lt_two_pow
  have hend := Nat.add_mul file.pageIdx (file.pages g) g.pageSize
  rw [hok.capacity_eq] at hcap
  rcases Nat.lt_or_ge (off + file.pageIdx * g.pageSize) (2 ^ 32) with hlt | hge
  · rw [u32_of_lt hlt]
    refine h.frame fun pos j hj => writePages_of_not_mem hlt (Nat.le_add_left _ _)
      (show _ ≤ (file.pageIdx + file.pages g) * g.pageSize by omega) (by omega) ?_
    cases pos <;> simp only [tocPageAt] <;> omega
  · -- nothing is written at the very end of the address range
    obtain rfl : buf = [] := List.length_eq_zero_iff.1 (by omega)
    have hzero : u32 (off + file.pageIdx * g.pageSize) = 0 := by
      rw [u32]
      simp only [List.length_nil] at haddr
      omega
    rw [hzero, Spifs.writePages, Nat.zero_mod]
    dsimp only
    rw [if_pos rfl, writeRest_nil]
    exact h

/-- **`spifs_write`.** -/
theorem Stored.write (h : Stored g m s dev) (lvl : ℕ) (htwo : 2 ≤ g.perPage) {i : ℕ}
    {name : CString} (hi : findFile s.files name = some i) (off : ℤ) (buf : List UInt8)
    (hgen : s.generation + 1 < 2 ^ 32) (haddr : ∀ file, s.files[i]? = some file → 0 ≤ off →
      off.toNat + buf.length ≤ file.capacity →
      file.pageIdx * g.pageSize + (off.toNat + buf.length) ≤ 2 ^ 32) :
    ∃ s' dev' status, spifsWrite lvl g s dev i off buf = some (s', dev', status) ∧
      Stored g m s' dev' := by
  obtain ⟨j, rfl, hj⟩ := findFile_eq_some hi
  obtain ⟨file, hfile⟩ := h.table.getElem?_of_find hj
  unfold spifsWrite
  rw [hfile]
  dsimp only
  split_ifs with hneg hbig hgrow
  · exact ⟨s, dev, _, rfl, h⟩
  · exact ⟨s, dev, _, rfl, h⟩
  all_goals
    have hok := h.table.ok file (List.mem_of_getElem? hfile)
    have haddr := haddr file hfile (by omega) (by omega)
    obtain ⟨hlo, hhi⟩ := h.table.middle_range h.layout hj hfile
    have hstored := h.writePages hok hlo hhi haddr (by omega)
  · have ht := h.table.withLength hj hfile (show off.toNat + buf.length ≤ file.capacity by omega)
    obtain ⟨s', dev', hcommit, hs'⟩ := hstored.commit lvl htwo ht hgen (.inl rfl)
    exact ⟨s', dev', .noError, by rw [hcommit]; rfl, hs'⟩
  · exact ⟨s, _, .noError, rfl, hstored⟩

/-! ### Runs -/

/-- A device and the file system mounted from it, if one is. -/
structure Volume where
  dev : Device
  fs : Option SpifsT

/-- What is done to a volume.  `write` and `truncate` stand for `spifs_open` and the
call on the file it finds. -/
inductive Op
  | create (name : CString) (len : ℕ)
  | remove (name : CString)
  | write (name : CString) (off : ℤ) (buf : List UInt8)
  | truncate (name : CString) (len : ℕ)
  | unmount
  | mount

/-- A call on the mounted file system. -/
def call (v : Volume) (f : SpifsT → Option (SpifsT × Device × Status)) : Option Volume :=
  match v.fs with
  | none => some v
  | some s => (f s).map fun r => ⟨r.2.1, some r.1⟩

/-- One step. -/
def step (lvl : ℕ) (g : Geometry) (v : Volume) : Op → Option Volume
  | .create name len => call v fun s => spifsCreate lvl g s v.dev name len
  | .remove name => call v fun s => spifsRemove lvl g s v.dev name
  | .write name off buf => call v fun s =>
    match findFile s.files (trimName name) with
    | none => some (s, v.dev, .errNotFound)
    | some i => spifsWrite lvl g s v.dev i off buf
  | .truncate name len => call v fun s =>
    match findFile s.files (trimName name) with
    | none => some (s, v.dev, .errNotFound)
    | some i => spifsTruncate lvl g s v.dev i len
  | .unmount => some { v with fs := none }
  | .mount =>
    match v.fs with
    | some _ => some v
    | none => some { v with fs := (spifsMount g v.dev).toOption }

/-- The file list is well-formed, and a mount of the device rebuilds exactly it. -/
def Volume.Sound (g : Geometry) (m : ℕ) (v : Volume) : Prop :=
  match v.fs with
  | some s => WellFormed g m s.files ∧ spifsMount g v.dev = .ok s
  | none => ∃ s, WellFormed g m s.files ∧ spifsMount g v.dev = .ok s

/-- The condition under which a call on the mounted file system keeps its table. -/
def Op.MeetsOn (g : Geometry) (s : SpifsT) : Op → Prop
  | .create name len => s.generation + 1 < 2 ^ 32 ∧
      (createCheck s (trimName name) len = .noError → s.files.length < s.numEntries →
        len + g.pageSize ≤ 2 ^ 32)
  | .write name off buf => s.generation + 1 < 2 ^ 32 ∧
      ∀ i file, findFile s.files (trimName name) = some i → s.files[i]? = some file → 0 ≤ off →
        off.toNat + buf.length ≤ file.capacity →
        file.pageIdx * g.pageSize + (off.toNat + buf.length) ≤ 2 ^ 32
  | .remove _ => s.generation + 1 < 2 ^ 32
  | .truncate _ _ => s.generation + 1 < 2 ^ 32
  | .unmount => True
  | .mount => True

/-- The condition on a step. -/
def Op.Meets (g : Geometry) (v : Volume) (op : Op) : Prop :=
  ∀ s, v.fs = some s → op.MeetsOn g s

/-- The invariant of a volume. -/
def Inv (g : Geometry) (m : ℕ) (v : Volume) : Prop :=
  ∃ s, Stored g m s v.dev ∧ (v.fs = some s ∨ v.fs = none)

variable {v : Volume}

theorem Inv.sound (h : Inv g m v) : v.Sound g m := by
  obtain ⟨s, hs, hfs⟩ := h
  unfold Volume.Sound
  rcases hfs with hfs | hfs
  · rw [hfs]
    exact ⟨hs.table.wellFormed, hs.mount⟩
  · rw [hfs]
    exact ⟨s, hs.table.wellFormed, hs.mount⟩

/-- A call that is taken and keeps the relation to the device is a step that keeps the
invariant. -/
theorem Inv.call (h : Inv g m v) {f : SpifsT → Option (SpifsT × Device × Status)}
    (hf : ∀ s, v.fs = some s → Stored g m s v.dev →
      ∃ s' dev' status, f s = some (s', dev', status) ∧ Stored g m s' dev') :
    ∃ v', Spifs.call v f = some v' ∧ Inv g m v' := by
  obtain ⟨s, hs, hfs | hfs⟩ := h
  · obtain ⟨s', dev', status, hcall, hs'⟩ := hf s hfs hs
    exact ⟨⟨dev', some s'⟩, by rw [Spifs.call, hfs]; simp [hcall], s', hs', .inl rfl⟩
  · exact ⟨v, by rw [Spifs.call, hfs], s, hs, .inr hfs⟩

/-- **One step.** -/
theorem Inv.step (h : Inv g m v) (lvl : ℕ) (htwo : 2 ≤ g.perPage) {op : Op}
    (hop : op.Meets g v) : ∃ v', step lvl g v op = some v' ∧ Inv g m v' := by
  cases op with
  | create name len =>
    refine h.call fun s hfs hs => ?_
    obtain ⟨hgen, hlen⟩ := hop s hfs
    exact hs.create lvl htwo name len hgen hlen
  | remove name => exact h.call fun s hfs hs => hs.remove lvl htwo name (hop s hfs)
  | write name off buf =>
    refine h.call fun s hfs hs => ?_
    obtain ⟨hgen, haddr⟩ := hop s hfs
    split
    · exact ⟨s, v.dev, _, rfl, hs⟩
    · rename_i i hi
      exact hs.write lvl htwo hi off buf hgen fun file hfile => haddr i file hi hfile
  | truncate name len =>
    refine h.call fun s hfs hs => ?_
    split
    · exact ⟨s, v.dev, _, rfl, hs⟩
    · rename_i i hi
      exact hs.truncate lvl htwo hi len (hop s hfs)
  | unmount =>
    obtain ⟨s, hs, -⟩ := h
    exact ⟨_, rfl, s, hs, .inr rfl⟩
  | mount =>
    obtain ⟨s, hs, hfs | hfs⟩ := h
    · exact ⟨v, by rw [Spifs.step, hfs], s, hs, .inl hfs⟩
    · have hstep : Spifs.step lvl g v .mount =
          some { v with fs := (spifsMount g v.dev).toOption } := by
        rw [Spifs.step, hfs]
      refine ⟨_, hstep, s, hs, .inl ?_⟩
      rw [hs.mount]
      rfl

/-! ### A formatted device -/

/-- The file system that `spifs_format` leaves behind. -/
def formatted (g : Geometry) (tocPages : ℕ) : SpifsT where
  generation := 3
  numEntries := tocPages * (g.pageSize / spifsEntryLength) - 2
  tocPosition := .front
  files := spifsAddAscending (spifsAddAscending [] (frontToc g tocPages)) (backToc g tocPages)

/-- **`spifs_format`** writes both copies. -/
theorem format_stored (lvl : ℕ) (dev : Device) {tocPages : ℕ} (hfits : 2 * tocPages < g.pageCount)
    (hsmall : tocPages * g.pageSize < 2 ^ 32) (hentry : spifsEntryLength < g.pageSize)
    (hdvd : g.pageSize % spifsEntryLength = 0) (htotal : g.totalSize % g.pageSize = 0)
    (hroom : 4 < tocPages * (g.pageSize / spifsEntryLength)) :
    ∃ dev', spifsFormat lvl g dev tocPages = some (dev', .noError) ∧
      Stored g tocPages (formatted g tocPages) dev' := by
  have hps : g.pageSize = 32 * g.perPage := (Nat.mul_div_cancel' (Nat.dvd_of_mod_eq_zero hdvd)).symm
  have htwo : 2 ≤ g.perPage := by
    rw [spifsEntryLength] at hentry
    omega
  have hle : tocPages * g.perPage ≤ tocPages * g.pageSize :=
    Nat.mul_le_mul_left _ (Nat.div_le_self _ _)
  have hroom : 4 < tocPages * g.perPage := hroom
  have hm : 0 < tocPages := by
    rcases Nat.eq_zero_or_pos tocPages with rfl | hm
    · omega
    · exact hm
  have hnum : u32 (tocPages * (g.pageSize / spifsEntryLength)) = tocPages * g.perPage :=
    u32_of_lt (show tocPages * g.perPage < 2 ^ 32 by omega)
  have hnum' : sub32 (tocPages * g.perPage) 2 = (formatted g tocPages).numEntries :=
    sub32_of_le (by omega) (by omega)
  have hl : Layout g tocPages (formatted g tocPages).numEntries := by
    refine ⟨Nat.dvd_of_mod_eq_zero hdvd, ?_, hsmall, hfits.le⟩
    change tocPages * g.perPage - 2 + 2 = tocPages * g.perPage
    omega
  have ht : Table g tocPages (formatted g tocPages).numEntries (formatted g tocPages).files :=
    Table.format hm hfits hsmall (show 2 ≤ tocPages * g.perPage - 2 by omega)
  -- the back copy gets generation 2, whatever the device held, and the front copy 3
  obtain ⟨dev₁, h₁, hholds, -⟩ := commit_holds (s := { formatted g tocPages with generation := 1 })
    lvl dev hl htwo (by norm_num)
  have hback := (getTocGeneration_of_holds hl (by norm_num) hholds).1
  obtain ⟨dev₂, h₂, hs⟩ := commit_stored (s :=
    { formatted g tocPages with generation := 2, tocPosition := .back }) lvl hl htwo ht
    (by norm_num) (fun _ => (congrArg TocHeader.generation hback).le)
  refine ⟨dev₂, ?_, hs⟩
  rw [spifsFormat, if_neg (not_not.2 hdvd), if_neg (not_not.2 htotal)]
  dsimp only
  rw [hnum, if_neg (by omega), hnum']
  have h₁ : spifsCommitToc lvl g ⟨1, (formatted g tocPages).numEntries, .front,
      (formatted g tocPages).files⟩ dev = _ := h₁
  have h₂ : spifsCommitToc lvl g ⟨2, (formatted g tocPages).numEntries, .back,
      (formatted g tocPages).files⟩ dev₁ = _ := h₂
  rw [show spifsAddAscending (spifsAddAscending [] (frontToc g tocPages)) (backToc g tocPages) =
    (formatted g tocPages).files from rfl, h₁, Option.bind_some]
  exact (congrArg _ h₂).trans rfl

/-- **The file table is sound and survives a mount**, in every state of every run on a
formatted device whose steps meet the condition, and no such run stops. -/
theorem file_table_sound (lvl : ℕ) (g : Geometry) (tocPages : ℕ) (dev dev' : Device)
    (hformat : spifsFormat lvl g dev tocPages = some (dev', .noError))
    (hfits : 2 * tocPages < g.pageCount) (hsmall : tocPages * g.pageSize < 2 ^ 32)
    (hentry : spifsEntryLength < g.pageSize) (ops : List Op)
    (hops : Machine.Along (step lvl g) (fun v op => op.Meets g v) ⟨dev', none⟩ ops) :
    (∃ v, Machine.run (step lvl g) ⟨dev', none⟩ ops = some v) ∧
      Machine.Throughout (step lvl g) (Volume.Sound g tocPages) ⟨dev', none⟩ ops := by
  -- the checks of the format that succeeded
  have hchecks : g.pageSize % spifsEntryLength = 0 ∧ g.totalSize % g.pageSize = 0 ∧
      4 < tocPages * (g.pageSize / spifsEntryLength) := by
    unfold spifsFormat at hformat
    split_ifs at hformat with h₁ h₂
    · simp at hformat
    · simp at hformat
    · refine ⟨not_not.1 h₁, not_not.1 h₂, ?_⟩
      dsimp only at hformat
      split_ifs at hformat with h₃
      · simp at hformat
      · exact (not_le.1 h₃).trans_le (Nat.mod_le _ _)
  obtain ⟨hdvd, htotal, hroom⟩ := hchecks
  obtain ⟨dev₁, hformat₁, hs⟩ := format_stored lvl dev hfits hsmall hentry hdvd htotal hroom
  obtain rfl : dev₁ = dev' := by
    rw [hformat₁] at hformat
    exact congrArg Prod.fst (Option.some.inj hformat)
  have htwo : 2 ≤ g.perPage := by
    have hps : g.pageSize = 32 * g.perPage :=
      (Nat.mul_div_cancel' (Nat.dvd_of_mod_eq_zero hdvd)).symm
    rw [spifsEntryLength] at hentry
    omega
  have hinit : Inv g tocPages ⟨dev₁, none⟩ := ⟨_, hs, .inr rfl⟩
  constructor
  · exact hops.run_isSome (fun v op hv hop => hv.step lvl htwo hop) hinit
  · refine (hops.throughout (fun v op v' hv hop hstep => ?_) hinit).imp fun v hv => hv.sound
    obtain ⟨v₁, h₁, hv₁⟩ := hv.step lvl htwo hop
    obtain rfl : v₁ = v' := Option.some.inj (h₁.symm.trans hstep)
    exact hv₁

/-- Eight pages of 128 bytes. -/
def smallGeometry : Geometry := ⟨7, 1024, 0, by decide, by decide⟩

/-- The file name `x`. -/
def nameX : CString := ⟨[120], by decide⟩

theorem small_stored (dev : Device) :
    ∃ dev', spifsFormat 2 smallGeometry dev 2 = some (dev', .noError) ∧
      Stored smallGeometry 2 (formatted smallGeometry 2) dev' :=
  format_stored 2 dev (by decide) (by decide) (by decide) (by decide) (by decide) (by decide)

theorem step_mount {lvl : ℕ} (h : Stored g m s dev) :
    step lvl g ⟨dev, none⟩ .mount = some ⟨dev, some s⟩ := by
  rw [step, h.mount]
  rfl

/-- A file is created on a fresh file system and found again. -/
theorem file_table_sound_small : ∃ dev',
    spifsFormat 2 smallGeometry (fun _ _ => 0) 2 = some (dev', .noError) ∧
      (∃ v, Machine.run (step 2 smallGeometry) ⟨dev', none⟩
        [.mount, .create nameX 5, .unmount, .mount] = some v) ∧
      Machine.Throughout (step 2 smallGeometry) (Volume.Sound smallGeometry 2) ⟨dev', none⟩
        [.mount, .create nameX 5, .unmount, .mount] := by
  obtain ⟨dev', hformat, hs⟩ := small_stored fun _ _ => 0
  have hmeets : Machine.Along (step 2 smallGeometry) (fun v op => op.Meets smallGeometry v)
      ⟨dev', none⟩ [.mount, .create nameX 5, .unmount, .mount] := by
    refine ⟨fun s h => absurd h (by simp), fun v hv => ⟨?_, fun v₂ _ => ⟨fun _ _ => trivial, fun v₃ _ =>
      ⟨fun _ _ => trivial, fun _ _ => trivial⟩⟩⟩⟩
    rw [step_mount hs] at hv
    cases hv
    intro s hfs
    cases hfs
    exact ⟨by decide, fun _ _ => by decide⟩
  exact ⟨dev', hformat, file_table_sound 2 smallGeometry 2 _ dev' hformat (by decide) (by decide)
    (by decide) _ hmeets⟩

/-- The table is sound throughout every run on a formatted device whose tables fit. -/
def TableSound : Prop :=
  ∀ (lvl : ℕ) (g : Geometry) (tocPages : ℕ) (dev dev' : Device) (ops : List Op),
    2 * tocPages < g.pageCount → spifsFormat lvl g dev tocPages = some (dev', .noError) →
      Machine.Throughout (step lvl g) (Volume.Sound g tocPages) ⟨dev', none⟩ ops

/-- **A length of 4 GiB less one byte is created with no pages.** -/
theorem create_rounds_to_zero : ¬ TableSound := by
  intro hall
  obtain ⟨dev', hformat, hs⟩ := small_stored fun _ _ => 0
  have h := hall 2 smallGeometry 2 _ dev' [.mount, .create nameX (2 ^ 32 - 1)] (by decide) hformat
  have h₁ := h.2 _ (step_mount hs)
  -- the checks pass, and the file is put behind the front table
  have hcheck : createCheck (formatted smallGeometry 2) (trimName nameX) (2 ^ 32 - 1) = .noError := by
    decide
  have hrun : findOpenRun smallGeometry (formatted smallGeometry 2).files 0 = 2 := by decide
  obtain ⟨writes, hw, -⟩ := commitWrites_spec (s := { formatted smallGeometry 2 with
    files := spifsAddAscending (formatted smallGeometry 2).files
      (newFile 2 (2 ^ 32 - 1) 0 (trimName nameX)) }) 2 hs.layout (by decide)
  obtain ⟨s', dev'', hcreate, hfiles⟩ : ∃ s' dev'',
      spifsCreate 2 smallGeometry (formatted smallGeometry 2) dev' nameX (2 ^ 32 - 1) =
        some (s', dev'', .noError) ∧ s'.files = spifsAddAscending (formatted smallGeometry 2).files
          (newFile 2 (2 ^ 32 - 1) 0 (trimName nameX)) := by
    unfold spifsCreate
    dsimp only
    rw [show (if 2 ^ 32 - 1 = 0 then smallGeometry.pageSize else
        roundup (2 ^ 32 - 1) smallGeometry.pageSize) = 0 by decide, hrun, hcheck,
      if_neg (by decide), if_pos (.of (by decide)), if_neg (by decide), if_neg (by decide),
      spifsCommitToc, hw]
    exact ⟨_, _, rfl, rfl⟩
  have hstep : step 2 smallGeometry ⟨dev', some (formatted smallGeometry 2)⟩
      (.create nameX (2 ^ 32 - 1)) = some ⟨dev'', some s'⟩ := by
    simp only [step, call, hcreate, Option.map_some]
  have hwf : WellFormed smallGeometry 2 s'.files := (h₁.2 _ hstep).1
  have hpos := hwf.nonempty (newFile 2 (2 ^ 32 - 1) 0 (trimName nameX)) (by rw [hfiles]; decide)
  revert hpos
  decide

/-! ### Power failures -/

/-- The device after the first `j` page writes of a commit, with what the write that
was under way then left in its page, if one was. -/
def crashDevice (dev : Device) (writes : List (ℕ × Page)) (j : ℕ) (torn : Option Page) : Device :=
  match torn, writes[j]? with
  | some page, some w => spifsWritePage (applyWrites dev (writes.take j)) w.1 page
  | _, _ => applyWrites dev (writes.take j)

/-- The copy that a commit was writing is neither the one that was there nor the new one. -/
def Torn (g : Geometry) (m : ℕ) (s : SpifsT) (files : List TocFile) (dev dev' : Device) : Prop :=
  ¬ (∀ t < m * g.perPage,
      slotAt g dev' s.tocPosition.other t = slotAt g dev s.tocPosition.other t) ∧
  ¬ Holds g dev' s.tocPosition.other 0 (tocImage (u32 (s.generation + 1)) s.numEntries files)

/-- A crash leaves alone what is not in the copy being written. -/
theorem crashDevice_of_not_mem {writes : List (ℕ × Page)} {p : ℕ} (h : ∀ w ∈ writes, w.1 ≠ p)
    (j : ℕ) (torn : Option Page) : crashDevice dev writes j torn p = dev p := by
  have htake : applyWrites dev (writes.take j) p = dev p :=
    applyWrites_of_not_mem fun w hw => h w (List.mem_of_mem_take hw)
  cases torn with
  | none => exact htake
  | some page =>
    unfold crashDevice
    cases hw : writes[j]? with
    | none => exact htake
    | some w =>
      exact (Function.update_of_ne (h w (List.mem_of_getElem? hw)).symm _ _).trans htake

/-- **A commit is atomic.**  However many of its page writes were done and whatever the one
under way left behind, a mount rebuilds the list before the commit or the list after it,
unless the checksum of a torn table matches.  What is left is `Recoverable` again, so that
commits may be cut short any number of times in a row, the copy being written already torn
by the ones before. -/
theorem commit_atomic (lvl : ℕ) (g : Geometry) (m : ℕ) (s : SpifsT) (dev : Device)
    (h : Recoverable g m s dev) (files : List TocFile) (ht : Table g m s.numEntries files)
    (writes : List (ℕ × Page)) (hw : commitWrites lvl g { s with files := files } = some writes)
    (j : ℕ) (torn : Option Page)
    (hcrc : Torn g m s files dev (crashDevice dev writes j torn) → ∀ crc checksum,
      tocChecksums g (crashDevice dev writes j torn) s.tocPosition.other = some (crc, checksum) →
        checksum ≠ crc) :
    ∃ s', spifsMount g (crashDevice dev writes j torn) = .ok s' ∧
      (s'.files = s.files ∨ s'.files = files) ∧
      Recoverable g m s' (crashDevice dev writes j torn) := by
  have hl := h.layout
  have hpos : 0 < s.generation := Nat.zero_lt_of_lt h.other
  -- only pages of the copy being written change
  have hkept : ∀ p, (∀ k < m, p ≠ tocPageAt g s.tocPosition.other k) →
      crashDevice dev writes j torn p = dev p := by
    refine fun p hp => crashDevice_of_not_mem (fun w hwm hwp => ?_) j torn
    obtain ⟨k, hk, hkw⟩ := commitWrites_mem (s := { s with files := files }) hl hw hwm
    exact hp k hk (hwp.symm.trans hkw)
  generalize crashDevice dev writes j torn = dev' at hcrc hkept ⊢
  -- the copy that was written last is not one of them
  have hcurrent : ∀ i < m, dev' (tocPageAt g s.tocPosition i) = dev (tocPageAt g s.tocPosition i) :=
    fun i hi => hkept _ fun k hk => (tocPageAt_ne_other hl hk hi s.tocPosition).symm
  have hold : getTocGeneration g dev' s.tocPosition.other < s.generation →
      ∃ s', spifsMount g dev' = .ok s' ∧ (s'.files = s.files ∨ s'.files = files) ∧
        Recoverable g m s' dev' := fun hlt =>
    have hs := h.of_other hcurrent hlt
    ⟨s, hs.mount, .inl rfl, hs⟩
  by_cases hsame : ∀ t < m * g.perPage,
      slotAt g dev' s.tocPosition.other t = slotAt g dev s.tocPosition.other t
  · -- nothing was written, and the copy keeps the generation it had
    refine hold (lt_of_eq_of_lt (getTocGeneration_congr hl fun t ht => ?_) h.other)
    rcases Nat.lt_or_ge t (m * g.perPage) with hlt | hge
    · exact hsame t hlt
    · refine slotAt_congr (hkept _ fun k hk heq => ?_)
      have hfits := hl.fits
      have hm : m ≤ t / g.perPage := (Nat.le_div_iff_mul_le hl.perPage_pos).2 hge
      have := tocPageAt_injOn ht (show k < g.pageCount by omega) heq
      omega
  by_cases hnew : Holds g dev' s.tocPosition.other 0
      (tocImage (u32 (s.generation + 1)) s.numEntries files)
  · rcases Nat.lt_or_ge (s.generation + 1) (2 ^ 32) with hlt | hge
    · -- everything was written
      rw [u32_of_lt hlt] at hnew
      have hthis := (getTocGeneration_of_holds hl h.generation_lt
        (holds_congr (hl.length_image _ _) hcurrent h.current)).2
      have hs : Recoverable g m ⟨s.generation + 1, s.numEntries, s.tocPosition.other, files⟩ dev' := by
        refine ⟨hl, ht, hlt, hnew, ?_⟩
        rw [TocPosition.other_other, hthis]
        exact Nat.lt_succ_self _
      exact ⟨_, hs.mount, .inr rfl, hs⟩
    · -- the new generation is 0, which marks a damaged table
      have hzero : u32 (s.generation + 1) = 0 := by
        have := h.generation_lt
        rw [u32]
        omega
      rw [hzero] at hnew
      have hthis := (getTocGeneration_of_holds hl (by norm_num) hnew).2
      exact hold (hthis ▸ hpos)
  · have hcorrupt := getTocGeneration_eq_corrupt (hcrc ⟨hsame, hnew⟩)
    exact hold (hcorrupt ▸ hpos)

/-- The list of a fresh file system with the file `x` of 5 bytes in it. -/
def oneFile : List TocFile :=
  spifsAddAscending (formatted smallGeometry 2).files (newFile 2 5 128 (trimName nameX))

theorem oneFile_table (h : Stored smallGeometry 2 (formatted smallGeometry 2) dev) :
    Table smallGeometry 2 (formatted smallGeometry 2).numEntries oneFile :=
  @Table.create _ _ _ (trimName nameX) (formatted smallGeometry 2) 5 h.table (by decide)
    (by decide) (by decide) 128 (by decide) (by decide)

/-- A page of zeros. -/
def zeroPage : Page := fun _ => 0

/-- The checksum over the table of `oneFile` without its footer, slot by slot. -/
theorem crcSlots_oneFile : crcSlots 0 (tocBody 4 6 oneFile) = 3138596424 := by
  have h₁ : Cksum.crc32 0 (TocHeader.bytes ⟨fsMagic, fsVersion, 6, 4⟩) = 1398314138 := by
    decide +kernel
  have h₂ : Cksum.crc32 1398314138 (frontToc smallGeometry 2).bytes = 1886773394 := by
    decide +kernel
  have h₃ : Cksum.crc32 1886773394 (newFile 2 5 128 (trimName nameX)).bytes = 2188450396 := by
    decide +kernel
  have h₄ : Cksum.crc32 2188450396 (backToc smallGeometry 2).bytes = 751635928 := by decide +kernel
  have h₅ : Cksum.crc32 751635928 emptyEntry = 3375046187 := by decide +kernel
  have h₆ : Cksum.crc32 3375046187 emptyEntry = 2107969800 := by decide +kernel
  have h₇ : Cksum.crc32 2107969800 emptyEntry = 3138596424 := by decide +kernel
  have hfiles : oneFile = [frontToc smallGeometry 2, newFile 2 5 128 (trimName nameX),
    backToc smallGeometry 2] := by decide +kernel
  simp only [crcSlots, tocBody, hfiles, entrySlots, List.foldl_cons, List.foldl_nil, h₁, h₂, h₃, h₄,
    h₅, h₆, h₇]

/-- After a commit of `oneFile` that lost its second page, the other copy starts with the
header of the next generation, and the checksum tells that it is torn. -/
theorem oneFile_torn (h : Stored smallGeometry 2 (formatted smallGeometry 2) dev)
    {writes : List (ℕ × Page)}
    (hpages : Pages smallGeometry 2 .back (tocImage 4 6 oneFile) writes) :
    headerAt smallGeometry (crashDevice dev writes 1 (some zeroPage)) .back =
        ⟨fsMagic, fsVersion, 6, 4⟩ ∧ Recoverable smallGeometry 2 (formatted smallGeometry 2)
        (crashDevice dev writes 1 (some zeroPage)) := by
  obtain ⟨hlen, hpages⟩ := hpages
  obtain ⟨w₀, w₁, rfl⟩ := List.length_eq_two.1 hlen
  obtain ⟨haddr₀, hslots⟩ := hpages 0 (by simp)
  have haddr₀ : w₀.1 = 7 := haddr₀
  have haddr₁ : w₁.1 = 6 := (hpages 1 (by simp)).1
  have hcrash : crashDevice dev [w₀, w₁] 1 (some zeroPage) =
      spifsWritePage (spifsWritePage dev 7 w₀.2) 6 zeroPage := by
    rw [← haddr₀, ← haddr₁]
    rfl
  rw [hcrash]
  have hfront : ∀ i < 2, spifsWritePage (spifsWritePage dev 7 w₀.2) 6 zeroPage i = dev i :=
    fun i hi => (Function.update_of_ne (by omega) _ _).trans (Function.update_of_ne (by omega) _ _)
  have hpage₆ : spifsWritePage (spifsWritePage dev 7 w₀.2) 6 zeroPage 6 = zeroPage :=
    Function.update_self ..
  have hpage₇ : spifsWritePage (spifsWritePage dev 7 w₀.2) 6 zeroPage 7 = w₀.2 :=
    (Function.update_of_ne (by decide) _ _).trans (Function.update_self ..)
  generalize spifsWritePage (spifsWritePage dev 7 w₀.2) 6 zeroPage = dev' at hfront hpage₆ hpage₇ ⊢
  have hfirst : ∀ k < 4, (tocImage 4 6 oneFile)[k]? = some (Memory.window (dev' 7) (32 * k) 32) :=
    fun k hk => by simpa [hpage₇] using hslots k hk
  have hsecond : ∀ k, Memory.window (dev' 6) k 32 = emptyEntry := fun _ => hpage₆ ▸ rfl
  have h₀ : slotAt smallGeometry dev' .back 0 = TocHeader.bytes ⟨fsMagic, fsVersion, 6, 4⟩ :=
    (Option.some.inj (hfirst 0 (by decide))).symm
  have hheader : headerAt smallGeometry dev' .back = ⟨fsMagic, fsVersion, 6, 4⟩ := by
    rw [headerAt, h₀]
    decide
  have hbody : (List.range 7).map (slotAt smallGeometry dev' .back) = tocBody 4 6 oneFile := by
    have h₁ : slotAt smallGeometry dev' .back 1 = (frontToc smallGeometry 2).bytes :=
      (Option.some.inj (hfirst 1 (by decide))).symm
    have h₂ : slotAt smallGeometry dev' .back 2 = (newFile 2 5 128 (trimName nameX)).bytes :=
      (Option.some.inj (hfirst 2 (by decide))).symm
    have h₃ : slotAt smallGeometry dev' .back 3 = (backToc smallGeometry 2).bytes :=
      (Option.some.inj (hfirst 3 (by decide))).symm
    have h₄ : slotAt smallGeometry dev' .back 4 = emptyEntry := hsecond 0
    have h₅ : slotAt smallGeometry dev' .back 5 = emptyEntry := hsecond 32
    have h₆ : slotAt smallGeometry dev' .back 6 = emptyEntry := hsecond 64
    simp only [List.range, List.range.loop, List.map, h₀, h₁, h₂, h₃, h₄, h₅, h₆]
    rfl
  refine ⟨hheader, h.recoverable.of_other hfront ?_⟩
  have hsums := tocChecksums_eq (k := 6) h.layout (congrArg TocHeader.numEntries hheader) (by decide)
  have hfooter : slotAt smallGeometry dev' .back 7 = emptyEntry := hsecond 96
  rw [hbody, crcSlots_oneFile, hfooter] at hsums
  refine lt_of_eq_of_lt (getTocGeneration_eq_corrupt fun crc checksum hsome => ?_) (by decide)
  cases hsums.symm.trans hsome
  decide

/-- A commit cut short in its first page after one that was cut short in its second page:
the copy it writes had the header of the next generation before. -/
theorem commit_atomic_small : ∃ dev writes s',
    Recoverable smallGeometry 2 (formatted smallGeometry 2) dev ∧
      headerAt smallGeometry dev .back = ⟨fsMagic, fsVersion, 6, 4⟩ ∧
      commitWrites 2 smallGeometry { formatted smallGeometry 2 with files := oneFile } = some writes ∧
      spifsMount smallGeometry (crashDevice dev writes 0 (some zeroPage)) = .ok s' ∧
      (s'.files = (formatted smallGeometry 2).files ∨ s'.files = oneFile) ∧
      Recoverable smallGeometry 2 s' (crashDevice dev writes 0 (some zeroPage)) := by
  obtain ⟨dev₀, -, hs⟩ := small_stored fun _ _ => 0
  obtain ⟨writes, hw, hpages⟩ :=
    commitWrites_spec (s := { formatted smallGeometry 2 with files := oneFile }) 2 hs.layout (by decide)
  obtain ⟨hheader, hrec⟩ := oneFile_torn hs hpages
  generalize crashDevice dev₀ writes 1 (some zeroPage) = dev at hheader hrec
  have hcrc : ∀ crc checksum, tocChecksums smallGeometry (crashDevice dev writes 0 (some zeroPage)) .back =
      some (crc, checksum) → checksum ≠ crc := by
    obtain ⟨hlen, hpages⟩ := hpages
    obtain ⟨w₀, w₁, rfl⟩ := List.length_eq_two.1 hlen
    have haddr₀ : w₀.1 = 7 := (hpages 0 (by simp)).1
    have hpage₇ : crashDevice dev [w₀, w₁] 0 (some zeroPage) 7 = zeroPage :=
      haddr₀ ▸ Function.update_self ..
    generalize crashDevice dev [w₀, w₁] 0 (some zeroPage) = dev' at hpage₇
    have hempty : ∀ k, Memory.window (dev' 7) k 32 = emptyEntry := fun _ => hpage₇ ▸ rfl
    have h₀ : slotAt smallGeometry dev' .back 0 = emptyEntry := hempty 0
    have h₁ : slotAt smallGeometry dev' .back 1 = emptyEntry := hempty 32
    have hnum : (headerAt smallGeometry dev' .back).numEntries = 0 := by
      rw [headerAt, h₀]
      decide
    have hsums := tocChecksums_eq hs.layout hnum (by decide)
    have hzeros : Cksum.crc32 0 emptyEntry = 420107693 := by decide +kernel
    intro crc checksum hsome
    rw [hsome, h₁, show (List.range (0 + 1)).map (slotAt smallGeometry dev' .back) = [emptyEntry] from
      congrArg (List.cons · []) h₀, crcSlots, List.foldl_cons, List.foldl_nil, hzeros] at hsums
    cases hsums
    decide
  obtain ⟨s', hmount, hfiles, hrec'⟩ := commit_atomic 2 smallGeometry 2 (formatted smallGeometry 2) dev
    hrec oneFile (oneFile_table hs) writes hw 0 (some zeroPage) fun _ => hcrc
  exact ⟨dev, writes, s', hrec, hheader, hw, hmount, hfiles, hrec'⟩

end Spifs
end LittleKernel
