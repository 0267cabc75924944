/-
# The two tables of contents

`tocImage` is a table as a list of slots, `slotAt` the slot the cursor reads after so
many steps from the start of a copy.  A copy that holds the image of a list is read
back as that list (`spifsMount_of_holds`), whichever direction it grows in and however
many pages it takes, and the page writes of `spifs_commit_toc` are the pages of the
image in their order (`commitWrites_spec`).
-/

import LittleKernel.Fs.Spifs.Table

namespace LittleKernel
namespace Spifs

open Bytes Word

variable {g : Geometry} {m n : ℕ} {dev : Device} {pos : TocPosition} {files : List TocFile}

/-! ### Slots -/

theorem TocFile.ofBytes_bytes (f : TocFile) : TocFile.ofBytes f.bytes = f := by
  obtain ⟨idx, len, cap, name, hi, hl, hc, hn⟩ := f
  have h₁ : field (le 4 idx ++ (le 4 len ++ (le 4 cap ++ name))) 0 4 = le 4 idx := by
    simpa using field_append [] (le 4 idx) (le 4 len ++ (le 4 cap ++ name))
  have h₂ : field (le 4 idx ++ (le 4 len ++ (le 4 cap ++ name))) 4 4 = le 4 len := by
    simpa using field_append (le 4 idx) (le 4 len) (le 4 cap ++ name)
  have h₃ : field (le 4 idx ++ (le 4 len ++ (le 4 cap ++ name))) 8 4 = le 4 cap := by
    simpa using field_append (le 4 idx ++ le 4 len) (le 4 cap) name
  have h₄ : field (le 4 idx ++ (le 4 len ++ (le 4 cap ++ name))) 12 20 = name := by
    have hn : name.length = 20 := hn
    simpa [hn] using field_append (le 4 idx ++ (le 4 len ++ le 4 cap)) name []
  simp only [TocFile.ofBytes, TocFile.bytes, h₁, h₂, h₃, h₄, ofLe_le_of_lt (n := 4) hi,
    ofLe_le_of_lt (n := 4) hl, ofLe_le_of_lt (n := 4) hc]

theorem TocHeader.ofBytes_bytes {h : TocHeader} (h₁ : h.magic < 2 ^ 32) (h₂ : h.version < 2 ^ 32)
    (h₃ : h.numEntries < 2 ^ 32) (h₄ : h.generation < 2 ^ 32) :
    TocHeader.ofBytes h.bytes = h := by
  obtain ⟨a, b, c, d⟩ := h
  have e₁ : field (le 4 a ++ (le 4 b ++ (le 4 c ++ (le 4 d ++ List.replicate 16 0)))) 0 4
      = le 4 a := by
    simpa using field_append [] (le 4 a) (le 4 b ++ (le 4 c ++ (le 4 d ++ List.replicate 16 0)))
  have e₂ : field (le 4 a ++ (le 4 b ++ (le 4 c ++ (le 4 d ++ List.replicate 16 0)))) 4 4
      = le 4 b := by
    simpa using field_append (le 4 a) (le 4 b) (le 4 c ++ (le 4 d ++ List.replicate 16 0))
  have e₃ : field (le 4 a ++ (le 4 b ++ (le 4 c ++ (le 4 d ++ List.replicate 16 0)))) 8 4
      = le 4 c := by
    simpa using field_append (le 4 a ++ le 4 b) (le 4 c) (le 4 d ++ List.replicate 16 0)
  have e₄ : field (le 4 a ++ (le 4 b ++ (le 4 c ++ (le 4 d ++ List.replicate 16 0)))) 12 4
      = le 4 d := by
    simpa using field_append (le 4 a ++ (le 4 b ++ le 4 c)) (le 4 d) (List.replicate 16 0)
  simp only [TocHeader.ofBytes, TocHeader.bytes, e₁, e₂, e₃, e₄, ofLe_le_of_lt (n := 4) h₁,
    ofLe_le_of_lt (n := 4) h₂, ofLe_le_of_lt (n := 4) h₃, ofLe_le_of_lt (n := 4) h₄]

theorem footerChecksum_tocFooter (crc : UInt32) : footerChecksum (tocFooter crc) = crc.toNat := by
  have h : field (tocFooter crc) 28 4 = le 4 crc.toNat := by
    have := field_append (List.replicate 28 0) (le 4 crc.toNat) []
    rwa [List.append_nil, length_le, List.length_replicate] at this
  rw [footerChecksum, h, ofLe_le_of_lt crc.toNat_lt]

/-- The slots behind the header: the files, then empty ones. -/
def entrySlots : ℕ → List TocFile → List (List UInt8)
  | 0, _ => []
  | n + 1, file :: rest => file.bytes :: entrySlots n rest
  | n + 1, [] => emptyEntry :: entrySlots n []

/-- The header and the slots behind it. -/
def tocBody (generation n : ℕ) (files : List TocFile) : List (List UInt8) :=
  TocHeader.bytes ⟨fsMagic, fsVersion, n, generation⟩ :: entrySlots n files

/-- The checksum of a list of slots. -/
def crcSlots (crc : UInt32) (l : List (List UInt8)) : UInt32 := l.foldl Cksum.crc32 crc

/-- All slots of a table. -/
def tocImage (generation n : ℕ) (files : List TocFile) : List (List UInt8) :=
  tocBody generation n files ++ [tocFooter (crcSlots 0 (tocBody generation n files))]

@[simp] theorem length_entrySlots (n : ℕ) (files : List TocFile) :
    (entrySlots n files).length = n := by
  induction n generalizing files with
  | zero => rfl
  | succ n ih => cases files <;> simp [entrySlots, ih]

@[simp] theorem length_tocImage (generation n : ℕ) (files : List TocFile) :
    (tocImage generation n files).length = n + 2 := by
  simp [tocImage, tocBody]

/-! ### Pages of a copy -/

/-- Two copies of `n + 2` slots on `m` pages each fit the device. -/
structure Layout (g : Geometry) (m n : ℕ) : Prop where
  dvd : spifsEntryLength ∣ g.pageSize
  slots : n + 2 = m * (g.pageSize / spifsEntryLength)
  small : m * g.pageSize < 2 ^ 32
  fits : 2 * m ≤ g.pageCount

/-- The slots of a page. -/
def Geometry.perPage (g : Geometry) : ℕ := g.pageSize / spifsEntryLength

/-- The page a copy has after `j` pages. -/
def tocPageAt (g : Geometry) : TocPosition → ℕ → ℕ
  | .front, j => j
  | .back, j => g.pageCount - 1 - j

theorem Layout.pageSize_eq (h : Layout g m n) : g.pageSize = 32 * g.perPage :=
  (Nat.mul_div_cancel' h.dvd).symm

theorem Layout.perPage_pos (h : Layout g m n) : 0 < g.perPage := by
  have := h.pageSize_eq
  have := g.pageSize_pos
  omega

theorem Layout.slots_eq (h : Layout g m n) : n + 2 = m * g.perPage := h.slots

theorem Layout.pages_pos (h : Layout g m n) : 0 < m := by
  have := h.slots
  rcases Nat.eq_zero_or_pos m with rfl | hm
  · omega
  · exact hm

theorem Layout.numEntries_lt (h : Layout g m n) : n < 2 ^ 32 := by
  have h₁ := h.slots_eq
  have h₂ := h.small
  rw [h.pageSize_eq] at h₂
  have h₃ : m * g.perPage ≤ m * (32 * g.perPage) := Nat.mul_le_mul_left _ (by omega)
  omega

theorem tocPageAt_zero (hcount : 0 < g.pageCount) (pos : TocPosition) :
    tocPageAt g pos 0 = tocPage g pos := by
  cases pos with
  | front => rfl
  | back =>
    rw [tocPageAt, tocPage, sub32_of_le g.pageCount_lt_two_pow hcount, Nat.sub_zero]

theorem advance_tocPageAt {j : ℕ} (hj : j + 1 < g.pageCount) (pos : TocPosition) :
    pos.advance (tocPageAt g pos j) = tocPageAt g pos (j + 1) := by
  have hcount := g.pageCount_lt_two_pow
  cases pos with
  | front => exact u32_of_lt (show j + 1 < 2 ^ 32 by omega)
  | back =>
    rw [tocPageAt, tocPageAt, TocPosition.advance, sub32_of_le (by omega) (by omega)]
    omega

theorem tocPageAt_lt {j : ℕ} (hj : j < g.pageCount) (pos : TocPosition) :
    tocPageAt g pos j < g.pageCount := by
  cases pos with
  | front => exact hj
  | back => rw [tocPageAt]; omega

/-- The two copies have no page in common. -/
theorem tocPageAt_ne_other (h : Layout g m n) {i j : ℕ} (hi : i < m) (hj : j < m)
    (pos : TocPosition) : tocPageAt g pos.other i ≠ tocPageAt g pos j := by
  have hfits := h.fits
  cases pos <;> simp only [TocPosition.other, tocPageAt] <;> omega

theorem tocPageAt_injOn {i j : ℕ} (hi : i < g.pageCount) (hj : j < g.pageCount)
    (hij : tocPageAt g pos i = tocPageAt g pos j) : i = j := by
  cases pos <;> simp only [tocPageAt] at hij <;> omega

/-! ### The cursor -/

/-- The cursor after `t` steps from the start of a copy. -/
def cursorAt (g : Geometry) (dev : Device) (pos : TocPosition) (t : ℕ) : Cursor where
  pageId := tocPageAt g pos (t / g.perPage)
  data := 32 * (t % g.perPage)
  page := dev (tocPageAt g pos (t / g.perPage))

/-- The slot it then reads. -/
def slotAt (g : Geometry) (dev : Device) (pos : TocPosition) (t : ℕ) : List UInt8 :=
  Memory.window (dev (tocPageAt g pos (t / g.perPage))) (32 * (t % g.perPage)) 32

@[simp] theorem cursorGet_cursorAt (t : ℕ) :
    cursorGet (cursorAt g dev pos t) = slotAt g dev pos t := rfl

theorem cursorInit_eq (h : Layout g m n) :
    cursorInit g dev (tocPage g pos) = some (cursorAt g dev pos 0) := by
  have hm := h.pages_pos
  have hfits := h.fits
  have hpage := tocPageAt_zero (show 0 < g.pageCount by omega) pos
  rw [cursorInit, spifsReadPage, ← hpage, if_pos (tocPageAt_lt (by omega) pos)]
  simp [cursorAt]

/-- The successor of the last number of a row starts the next one. -/
theorem succ_div_mod_of_last {t e : ℕ} (he : 0 < e) (h : t % e + 1 = e) :
    (t + 1) / e = t / e + 1 ∧ (t + 1) % e = 0 := by
  refine (Nat.div_mod_unique he).2 ⟨?_, he⟩
  have := Nat.mod_add_div t e
  rw [Nat.mul_add]
  omega

theorem succ_div_mod_of_not_last {t e : ℕ} (he : 0 < e) (h : t % e + 1 ≠ e) :
    (t + 1) / e = t / e ∧ (t + 1) % e = t % e + 1 := by
  have hmod := Nat.mod_lt t he
  refine (Nat.div_mod_unique he).2 ⟨?_, by omega⟩
  have := Nat.mod_add_div t e
  omega

variable {t : ℕ}

/-- **`cursor_advance`** goes to the next slot, over the end of a page too, as long as the
device has the page. -/
theorem cursorAdvance_eq (h : Layout g m n) (ht : t / g.perPage < g.pageCount) :
    cursorAdvance g dev pos (cursorAt g dev pos t) =
      if (t + 1) / g.perPage < g.pageCount then some (cursorAt g dev pos (t + 1)) else none := by
  have hp := h.perPage_pos
  have hps := h.pageSize_eq
  have hend : (cursorAt g dev pos t).data + spifsEntryLength = g.pageSize ↔
      t % g.perPage + 1 = g.perPage := by
    simp only [cursorAt, spifsEntryLength]
    omega
  rw [cursorAdvance]
  by_cases hlast : t % g.perPage + 1 = g.perPage
  · obtain ⟨hdiv, hmod⟩ := succ_div_mod_of_last hp hlast
    rw [if_pos (hend.2 hlast), cursorInit, spifsReadPage, cursorAt, cursorAt, hdiv, hmod]
    by_cases hnext : t / g.perPage + 1 < g.pageCount
    · rw [advance_tocPageAt hnext, if_pos (tocPageAt_lt hnext pos), if_pos hnext, Option.map_some]
    · -- behind the last page of the device the number wraps or is too large
      have hcount := g.pageCount_lt_two_pow
      have hpage : t / g.perPage = g.pageCount - 1 :=
        Nat.le_antisymm (Nat.le_sub_one_of_lt ht) (Nat.sub_le_iff_le_add.2 (Nat.not_lt.1 hnext))
      have hout : ¬ pos.advance (tocPageAt g pos (t / g.perPage)) < g.pageCount := by
        rw [hpage]
        cases pos <;> simp only [TocPosition.advance, tocPageAt, sub32, u32] <;> omega
      rw [if_neg hout, if_neg hnext, Option.map_none]
  · obtain ⟨hdiv, hmod⟩ := succ_div_mod_of_not_last hp hlast
    rw [if_neg fun he => hlast (hend.1 he), cursorAt, cursorAt, hdiv, hmod, if_pos ht]
    rfl

/-- A slot of a copy is on a page of the device. -/
theorem Layout.div_lt (h : Layout g m n) (ht : t < m * g.perPage) :
    t / g.perPage < g.pageCount := by
  have hfits := h.fits
  have hlt : t / g.perPage < m := Nat.div_lt_of_lt_mul (by rwa [Nat.mul_comm])
  omega

/-- The cursor stays on the device within a copy. -/
theorem cursorAdvance_cursorAt (h : Layout g m n) (ht : t + 1 < m * g.perPage) :
    cursorAdvance g dev pos (cursorAt g dev pos t) = some (cursorAt g dev pos (t + 1)) := by
  rw [cursorAdvance_eq h (h.div_lt (by omega)), if_pos (h.div_lt ht)]

/-! ### Reading a copy -/

/-- The copy at `pos` holds the slots `l` from slot `t` on. -/
def Holds (g : Geometry) (dev : Device) (pos : TocPosition) : ℕ → List (List UInt8) → Prop
  | _, [] => True
  | t, a :: l => slotAt g dev pos t = a ∧ Holds g dev pos (t + 1) l

theorem holds_append {l l' : List (List UInt8)} :
    Holds g dev pos t (l ++ l') ↔ Holds g dev pos t l ∧ Holds g dev pos (t + l.length) l' := by
  induction l generalizing t with
  | nil => simp [Holds]
  | cons a l ih =>
    rw [List.cons_append, Holds, Holds, ih, List.length_cons, and_assoc,
      show t + 1 + l.length = t + (l.length + 1) by omega]

theorem holds_iff {l : List (List UInt8)} :
    Holds g dev pos t l ↔ ∀ i (h : i < l.length), slotAt g dev pos (t + i) = l[i] := by
  induction l generalizing t with
  | nil => simp [Holds]
  | cons a l ih =>
    rw [Holds, ih]
    constructor
    · rintro ⟨h₀, h₁⟩ i hi
      cases i with
      | zero => exact h₀
      | succ i =>
        rw [List.getElem_cons_succ, ← h₁ i (by simpa using hi)]
        congr 1
        omega
    · intro h
      refine ⟨h 0 (by simp), fun i hi => ?_⟩
      have := h (i + 1) (by simpa using hi)
      rw [List.getElem_cons_succ] at this
      rw [← this]
      congr 1
      omega

/-- The loop of `get_toc_generation`, wherever it leads: a damaged header can name more
entries than a copy has. -/
theorem crcEntries_eq (h : Layout g m n) {k t : ℕ} (crc : UInt32)
    (ht : t / g.perPage < g.pageCount) :
    crcEntries g dev pos k (cursorAt g dev pos t) crc =
      if (t + k) / g.perPage < g.pageCount then some (cursorAt g dev pos (t + k),
        crcSlots crc ((List.range' (t + 1) k).map (slotAt g dev pos))) else none := by
  induction k generalizing t crc with
  | zero => exact (if_pos ht).symm
  | succ k ih =>
    rw [crcEntries, cursorAdvance_eq h ht, show t + (k + 1) = t + 1 + k by omega]
    by_cases hnext : (t + 1) / g.perPage < g.pageCount
    · rw [if_pos hnext, Option.bind_some, cursorGet_cursorAt, ih _ hnext]
      rfl
    · have := Nat.div_le_div_right (c := g.perPage) (show t + 1 ≤ t + 1 + k by omega)
      rw [if_neg hnext, if_neg (by omega), Option.bind_none]

/-- The same over slots a copy holds. -/
theorem crcEntries_of_holds (h : Layout g m n) {l : List (List UInt8)} (crc : UInt32)
    (hl : Holds g dev pos (t + 1) l) (ht : t + l.length < m * g.perPage) :
    crcEntries g dev pos l.length (cursorAt g dev pos t) crc =
      some (cursorAt g dev pos (t + l.length), crcSlots crc l) := by
  have hslots : (List.range' (t + 1) l.length).map (slotAt g dev pos) = l := by
    refine List.ext_getElem (by simp) fun i _ hi => ?_
    rw [List.getElem_map, List.getElem_range', Nat.one_mul]
    exact holds_iff.1 hl i hi
  rw [crcEntries_eq h crc (h.div_lt (by omega)), if_pos (h.div_lt ht), hslots]

/-- The loop of `spifs_mount` over the slots of a list of files. -/
theorem mountEntries_of_holds (h : Layout g m n) {k : ℕ} {files acc : List TocFile}
    (hl : Holds g dev pos (t + 1) (entrySlots k files)) (ht : t + k < m * g.perPage)
    (hlen : files.length ≤ k) (hcap : ∀ f ∈ files, f.capacity ≠ 0) :
    mountEntries g dev pos k (cursorAt g dev pos t) acc = some (acc ++ files) := by
  induction k generalizing files acc t with
  | zero =>
    obtain rfl : files = [] := List.length_eq_zero_iff.1 (by omega)
    simp [mountEntries]
  | succ k ih =>
    rw [mountEntries, cursorAdvance_cursorAt h (by omega), Option.bind_some, cursorGet_cursorAt]
    cases files with
    | nil =>
      have hempty : (TocFile.ofBytes emptyEntry).capacity = 0 := by decide
      rw [entrySlots] at hl
      rw [hl.1]
      dsimp only
      rw [if_pos hempty]
      exact ih hl.2 (by omega) (Nat.zero_le _) (by simp)
    | cons f rest =>
      rw [entrySlots] at hl
      rw [hl.1, TocFile.ofBytes_bytes]
      dsimp only
      rw [if_neg (hcap f List.mem_cons_self),
        ih hl.2 (by omega) (by simpa using hlen)
          fun x hx => hcap x (List.mem_cons_of_mem _ hx)]
      simp

/-- The header a copy starts with. -/
def headerAt (g : Geometry) (dev : Device) (pos : TocPosition) : TocHeader :=
  .ofBytes (slotAt g dev pos 0)

/-- **`get_toc_generation`** of a copy that holds a table is its generation. -/
theorem getTocGeneration_of_holds (h : Layout g m n) {generation : ℕ}
    (hgen : generation < 2 ^ 32) (himage : Holds g dev pos 0 (tocImage generation n files)) :
    headerAt g dev pos = ⟨fsMagic, fsVersion, n, generation⟩ ∧
      getTocGeneration g dev pos = generation := by
  have hslots := h.slots_eq
  obtain ⟨hbody, hfooter⟩ := holds_append.1 himage
  obtain ⟨hslot, hentries⟩ := hbody
  have hheader : TocHeader.ofBytes (slotAt g dev pos 0) =
      ⟨fsMagic, fsVersion, n, generation⟩ := by
    rw [hslot]
    exact TocHeader.ofBytes_bytes (show fsMagic < 2 ^ 32 by decide)
      (show fsVersion < 2 ^ 32 by decide) h.numEntries_lt hgen
  have hfooter : slotAt g dev pos (n + 1) =
      tocFooter (crcSlots 0 (tocBody generation n files)) := by
    have := hfooter.1
    simpa [tocBody] using this
  -- the loop stops at the last entry, and one step further is the footer
  have hcrc := crcEntries_of_holds h (Cksum.crc32 0 (slotAt g dev pos 0)) hentries
    (by rw [length_entrySlots]; omega)
  rw [length_entrySlots, Nat.zero_add] at hcrc
  have hsums : tocChecksums g dev pos = some ((crcSlots 0 (tocBody generation n files)).toNat,
      (crcSlots 0 (tocBody generation n files)).toNat) := by
    rw [tocChecksums, cursorInit_eq h, Option.bind_some, cursorGet_cursorAt, hheader, hcrc,
      Option.bind_some, cursorAdvance_cursorAt h (by omega), Option.map_some, cursorGet_cursorAt,
      hfooter, footerChecksum_tocFooter, hslot]
    rfl
  refine ⟨hheader, ?_⟩
  rw [getTocGeneration, cursorInit_eq h]
  simp only [cursorGet_cursorAt, hheader, hsums, ne_eq, not_true_eq_false, if_false]

/-- The two checksums of a copy whose header names `k` entries. -/
theorem tocChecksums_eq (h : Layout g m n) {k : ℕ} (hk : (headerAt g dev pos).numEntries = k)
    (hlast : (k + 1) / g.perPage < g.pageCount) :
    tocChecksums g dev pos = some ((crcSlots 0 ((List.range (k + 1)).map (slotAt g dev pos))).toNat,
        footerChecksum (slotAt g dev pos (k + 1))) := by
  have hle := (Nat.div_le_div_right (c := g.perPage) k.le_succ).trans_lt hlast
  have hzero : 0 / g.perPage < g.pageCount := by
    rw [Nat.zero_div]
    exact Nat.zero_lt_of_lt hlast
  rw [headerAt] at hk
  rw [tocChecksums, cursorInit_eq h, Option.bind_some, cursorGet_cursorAt, hk, crcEntries_eq h _ hzero,
    Nat.zero_add, if_pos hle, Option.bind_some, cursorAdvance_eq h hle, if_pos hlast,
    List.range_eq_range', List.range'_succ]
  rfl

/-- **`get_toc_generation`** goes by the slots alone. -/
theorem getTocGeneration_congr (h : Layout g m n) {dev' : Device}
    (hslot : ∀ t, t / g.perPage < g.pageCount → slotAt g dev' pos t = slotAt g dev pos t) :
    getTocGeneration g dev' pos = getTocGeneration g dev pos := by
  have hpages := h.pages_pos
  have hfits := h.fits
  have hzero : 0 / g.perPage < g.pageCount := by
    rw [Nat.zero_div]
    omega
  have hsums : tocChecksums g dev' pos = tocChecksums g dev pos := by
    rw [tocChecksums, tocChecksums, cursorInit_eq h, cursorInit_eq h, Option.bind_some,
      Option.bind_some, cursorGet_cursorAt, cursorGet_cursorAt, hslot 0 hzero,
      crcEntries_eq h _ hzero, crcEntries_eq h _ hzero]
    generalize (TocHeader.ofBytes (slotAt g dev pos 0)).numEntries = k
    split_ifs with hk
    · have hcrc : (List.range' (0 + 1) k).map (slotAt g dev' pos) =
          (List.range' (0 + 1) k).map (slotAt g dev pos) := by
        refine List.map_congr_left fun t ht => hslot t (lt_of_le_of_lt ?_ hk)
        obtain ⟨-, hle⟩ := List.mem_range'_1.1 ht
        exact Nat.div_le_div_right (by omega)
      rw [Option.bind_some, Option.bind_some, cursorAdvance_eq h hk, cursorAdvance_eq h hk, hcrc]
      split_ifs with hnext
      · rw [Option.map_some, Option.map_some, cursorGet_cursorAt, cursorGet_cursorAt, hslot _ hnext]
      · rfl
    · rfl
  simp only [getTocGeneration, cursorInit_eq h, cursorGet_cursorAt, hslot 0 hzero, hsums]
  rfl

/-- A copy is not taken for a newer one than its header says. -/
theorem getTocGeneration_le (h : Layout g m n) {x : ℕ}
    (hx : (headerAt g dev pos).magic = fsMagic → (headerAt g dev pos).generation ≤ x) :
    getTocGeneration g dev pos ≤ x := by
  unfold getTocGeneration
  split
  · exact Nat.zero_le _
  · rename_i c hc
    obtain rfl : cursorAt g dev pos 0 = c := Option.some.inj ((cursorInit_eq h).symm.trans hc)
    dsimp only
    split_ifs with hmagic
    · exact Nat.zero_le _
    · exact Nat.zero_le _
    · split
      · exact Nat.zero_le _
      · split_ifs
        · exact Nat.zero_le _
        · exact hx (not_not.1 hmagic)

/-- Nor for any at all when its checksum does not match. -/
theorem getTocGeneration_eq_corrupt
    (h : ∀ crc checksum, tocChecksums g dev pos = some (crc, checksum) → checksum ≠ crc) :
    getTocGeneration g dev pos = corruptToc := by
  unfold getTocGeneration
  split
  · rfl
  · dsimp only
    split_ifs
    · rfl
    · rfl
    · split
      · rfl
      · exact if_pos (h _ _ ‹_›)

/-- **`spifs_mount`** rebuilds the list of the newer copy. -/
theorem spifsMount_of_holds (h : Layout g m n) {generation : ℕ} (hgen : generation < 2 ^ 32)
    (himage : Holds g dev pos 0 (tocImage generation n files))
    (hother : getTocGeneration g dev pos.other < generation) (hok : ∀ f ∈ files, FileOk g f)
    (hchain : files.Pairwise (Before g)) (hcount : files.length ≤ n) :
    spifsMount g dev = .ok ⟨generation, n, pos, files⟩ := by
  have hslots := h.slots_eq
  obtain ⟨hheader, hthis⟩ := getTocGeneration_of_holds h hgen himage
  have hentries : Holds g dev pos 1 (entrySlots n files) := (holds_append.1 himage).1.2
  have hcap : ∀ f ∈ files, f.capacity ≠ 0 := fun f hf => by
    have hps := g.pageSize_pos
    rw [(hok f hf).capacity_eq]
    exact (Nat.mul_pos (hok f hf).pages_pos hps).ne'
  have hmount : mountEntries g dev pos n (cursorAt g dev pos 0) [] = some files := by
    rw [mountEntries_of_holds h hentries (by omega) hcount hcap, List.nil_append]
  have hcheck := consistencyCheck_of_chain hok hchain
  have hpos : (if getTocGeneration g dev .back < getTocGeneration g dev .front then
      TocPosition.front else .back) = pos ∧
      max (getTocGeneration g dev .front) (getTocGeneration g dev .back) = generation ∧
      ¬ (getTocGeneration g dev .front = corruptToc ∧ getTocGeneration g dev .back = corruptToc) := by
    unfold corruptToc
    cases pos with
    | front =>
      rw [TocPosition.other] at hother
      rw [hthis, if_pos hother]
      exact ⟨rfl, max_eq_left hother.le, fun h => by omega⟩
    | back =>
      rw [TocPosition.other] at hother
      rw [hthis, if_neg (by omega)]
      exact ⟨rfl, max_eq_right hother.le, fun h => by omega⟩
  obtain ⟨hpos, hmax, hne⟩ := hpos
  have hnum : (TocHeader.ofBytes (slotAt g dev pos 0)).numEntries = n :=
    congrArg TocHeader.numEntries hheader
  unfold spifsMount
  simp only [hne, if_false, hpos, hmax, cursorInit_eq h, cursorGet_cursorAt, hnum, hmount, hcheck,
    if_true]

/-! ### Writing a copy -/

/-- The state of `spifs_commit_toc` after the slots `done`: full pages are written, the
rest is in the page buffer. -/
structure Progress (g : Geometry) (target : TocPosition) (c : Commit)
    (done : List (List UInt8)) : Prop where
  crc : c.crc = crcSlots 0 done
  cursor_eq : c.cursor + 32 * (c.writes.length * g.perPage) = 32 * done.length
  cursor_le : c.cursor ≤ g.pageSize
  addr : c.tocPageAddr = tocPageAt g target c.writes.length
  written : ∀ j (h : j < c.writes.length), c.writes[j].1 = tocPageAt g target j ∧
    ∀ k < g.perPage, done[j * g.perPage + k]? = some (Memory.window c.writes[j].2 (32 * k) 32)
  page : ∀ k, 32 * k < c.cursor →
    done[c.writes.length * g.perPage + k]? = some (Memory.window c.page (32 * k) 32)

variable {target : TocPosition} {c : Commit} {done : List (List UInt8)}

/-- A slot stored in a page is read back. -/
theorem window_store_slot (page : Page) (off : ℕ) {entry : List UInt8} (he : entry.length = 32) :
    Memory.window (Memory.store page off entry) off 32 = entry := by
  have := Memory.window_store page off [] entry []
  simpa [he] using this

/-- The slots before it stay. -/
theorem window_store_slot_of_le (page : Page) {off a : ℕ} (entry : List UInt8) (ha : a + 32 ≤ off) :
    Memory.window (Memory.store page off entry) a 32 = Memory.window page a 32 :=
  Memory.window_congr fun i hi => Memory.store_of_not_mem (.inl (by omega))

theorem Progress.put (h : Progress g target c done) {entry : List UInt8}
    (he : entry.length = 32) (hroom : c.cursor + 32 ≤ g.pageSize) :
    Progress g target (c.put entry) (done ++ [entry]) := by
  have hcur := h.cursor_eq
  refine ⟨?_, ?_, hroom, h.addr, fun j hj => ?_, fun k hk => ?_⟩
  · simp only [Commit.put, h.crc, crcSlots, List.foldl_append, List.foldl_cons, List.foldl_nil]
  · simp only [Commit.put, spifsEntryLength, List.length_append, List.length_singleton]
    omega
  · obtain ⟨haddr, hslots⟩ := h.written j hj
    refine ⟨haddr, fun k hk => ?_⟩
    have hsome := hslots k hk
    rw [List.getElem?_append_left (List.getElem?_eq_some_iff.1 hsome).1]
    exact hsome
  · simp only [Commit.put, spifsEntryLength] at hk ⊢
    rcases Nat.lt_or_ge (32 * k) c.cursor with hlt | hge
    · have hsome := h.page k hlt
      rw [List.getElem?_append_left (List.getElem?_eq_some_iff.1 hsome).1, hsome,
        window_store_slot_of_le _ _ (by omega)]
    · -- the new slot
      have hk : 32 * k = c.cursor := by omega
      rw [List.getElem?_append_right (by omega),
        show c.writes.length * g.perPage + k - done.length = 0 by omega, hk,
        window_store_slot _ _ he]
      rfl

theorem Progress.flush (h : Progress g target c done) (hl : Layout g m n)
    (hfull : c.cursor = g.pageSize) (hlt : c.writes.length + 1 < g.pageCount) :
    Progress g target (c.flush target) done := by
  have hcur := h.cursor_eq
  have hps := hl.pageSize_eq
  refine ⟨h.crc, ?_, Nat.zero_le _, ?_, fun j hj => ?_, fun k hk => ?_⟩
  · simp only [Commit.flush, List.length_append, List.length_singleton, Nat.add_mul]
    omega
  · simp only [Commit.flush, h.addr, List.length_append, List.length_singleton]
    exact advance_tocPageAt hlt target
  · simp only [Commit.flush, List.length_append, List.length_singleton] at hj ⊢
    rcases Nat.lt_or_ge j c.writes.length with hj' | hj'
    · rw [List.getElem_append_left hj']
      exact h.written j hj'
    · obtain rfl : j = c.writes.length := by omega
      rw [List.getElem_concat_length rfl]
      exact ⟨h.addr, fun k hk => h.page k (by omega)⟩
  · simp only [Commit.flush] at hk
    omega

/-- The first thing the loop does for a slot: write the page if it is full. -/
theorem Progress.flushIfFull (h : Progress g target c done) (hl : Layout g m n)
    (hroom : done.length + 1 < m * g.perPage) :
    Progress g target (if c.cursor = g.pageSize then c.flush target else c) done ∧
      (if c.cursor = g.pageSize then c.flush target else c).cursor + 32 ≤ g.pageSize := by
  have hcur := h.cursor_eq
  have hle := h.cursor_le
  have hps := hl.pageSize_eq
  have hpp := hl.perPage_pos
  have hfits := hl.fits
  split_ifs with hfull
  · have hlt : (c.writes.length + 1) * g.perPage < m * g.perPage := by
      rw [Nat.add_mul]
      omega
    have hlt : c.writes.length + 1 < m := Nat.lt_of_mul_lt_mul_right hlt
    exact ⟨h.flush hl hfull (by omega), by simp only [Commit.flush]; omega⟩
  · exact ⟨h, by omega⟩

@[simp] theorem TocFile.length_bytes (f : TocFile) : f.bytes.length = 32 := by
  simp [TocFile.bytes, f.filename_length, maxFilenameLength]

/-- **The loop of `spifs_commit_toc`.** -/
theorem Progress.commitEntries (hl : Layout g m n) {k : ℕ} (files : List TocFile)
    (h : Progress g target c done) (hroom : done.length + k < m * g.perPage) :
    Progress g target (commitEntries g target k files c) (done ++ entrySlots k files) := by
  induction k generalizing files c done with
  | zero => simpa [Spifs.commitEntries, entrySlots] using h
  | succ k ih =>
    obtain ⟨hflush, hcur⟩ := h.flushIfFull hl (by omega)
    cases files with
    | nil =>
      have : Progress g target _ (done ++ [emptyEntry] ++ entrySlots k []) := ih []
        (hflush.put (show emptyEntry.length = 32 by simp [emptyEntry]) hcur)
        (show (done ++ [emptyEntry]).length + k < m * g.perPage by simp; omega)
      rwa [List.append_assoc] at this
    | cons f rest =>
      have : Progress g target _ (done ++ [f.bytes] ++ entrySlots k rest) := ih rest
        (hflush.put f.length_bytes hcur)
        (show (done ++ [f.bytes]).length + k < m * g.perPage by simp; omega)
      rwa [List.append_assoc] at this

@[simp] theorem TocHeader.length_bytes (h : TocHeader) : h.bytes.length = 32 := by
  simp [TocHeader.bytes]

theorem length_tocFooter (crc : UInt32) : (tocFooter crc).length = 32 := by
  simp [tocFooter]

/-- The header is put into an empty page. -/
theorem progress_header (hl : Layout g m n) (target : TocPosition) (header : TocHeader) :
    Progress g target (Commit.put ⟨0, fun _ => 0, tocPage g target, [], 0⟩ header.bytes)
      [header.bytes] := by
  have hps := hl.pageSize_eq
  have hpp := hl.perPage_pos
  have hm := hl.pages_pos
  have hfits := hl.fits
  have hstart : Progress g target ⟨0, fun _ => 0, tocPage g target, [], 0⟩ [] := by
    refine ⟨rfl, by simp, Nat.zero_le _, ?_, by simp, by simp⟩
    exact (tocPageAt_zero (by omega) target).symm
  exact hstart.put header.length_bytes (by simp only; omega)

/-- The slots of the pages `writes` are the slots `image`. -/
def Pages (g : Geometry) (m : ℕ) (target : TocPosition) (image : List (List UInt8))
    (writes : List (ℕ × Page)) : Prop :=
  writes.length = m ∧ ∀ j (h : j < writes.length), writes[j].1 = tocPageAt g target j ∧
    ∀ k < g.perPage, image[j * g.perPage + k]? = some (Memory.window writes[j].2 (32 * k) 32)

variable {s : SpifsT}

/-- `spifs_commit_toc` behind its loop. -/
theorem commitWrites_eq (lvl : ℕ) (hl : Layout g m s.numEntries) :
    ∃ c, Progress g s.tocPosition.other c
        (tocBody (u32 (s.generation + 1)) s.numEntries s.files) ∧
      commitWrites lvl g s = if DebugAssert lvl (c.cursor = g.pageSize - spifsEntryLength) then
        some (c.writes ++ [(c.tocPageAddr, Memory.store c.page c.cursor (tocFooter c.crc))])
      else none := by
  have hslots := hl.slots_eq
  refine ⟨_, ?_, rfl⟩
  exact (progress_header hl s.tocPosition.other
    ⟨fsMagic, fsVersion, s.numEntries, u32 (s.generation + 1)⟩).commitEntries hl s.files
    (show 1 + s.numEntries < m * g.perPage by omega)

theorem length_tocBody (generation n : ℕ) (files : List TocFile) :
    (tocBody generation n files).length = n + 1 := by
  simp [tocBody]

variable {writes : List (ℕ × Page)}

/-- Whatever `spifs_commit_toc` writes lies in the copy it rewrites. -/
theorem commitWrites_mem {lvl : ℕ} (hl : Layout g m s.numEntries)
    (hw : commitWrites lvl g s = some writes) {w : ℕ × Page}
    (hmem : w ∈ writes) : ∃ j < m, w.1 = tocPageAt g s.tocPosition.other j := by
  have hslots := hl.slots_eq
  obtain ⟨c, hprog, hc⟩ := commitWrites_eq lvl hl
  have hcur := hprog.cursor_eq
  rw [length_tocBody] at hcur
  rw [hc] at hw
  split_ifs at hw
  cases hw
  -- the pages written so far are not all of them
  have hlt : c.writes.length < m := by
    have : c.writes.length * g.perPage < m * g.perPage := by omega
    exact Nat.lt_of_mul_lt_mul_right this
  rcases List.mem_append.1 hmem with hmem | hmem
  · obtain ⟨j, hj, rfl⟩ := List.getElem_of_mem hmem
    exact ⟨j, hj.trans hlt, (hprog.written j hj).1⟩
  · rw [List.mem_singleton.1 hmem]
    exact ⟨_, hlt, hprog.addr⟩

/-- **The page writes of `spifs_commit_toc`** are the pages of the new table. -/
theorem commitWrites_spec (lvl : ℕ) (hl : Layout g m s.numEntries)
    (htwo : 2 ≤ g.perPage) : ∃ writes, commitWrites lvl g s = some writes ∧
      Pages g m s.tocPosition.other (tocImage (u32 (s.generation + 1)) s.numEntries s.files)
        writes := by
  have hslots := hl.slots_eq
  have hps := hl.pageSize_eq
  obtain ⟨c, hprog, hc⟩ := commitWrites_eq lvl hl
  rw [hc]
  have hcur := hprog.cursor_eq
  have hle := hprog.cursor_le
  have hlen := length_tocBody (u32 (s.generation + 1)) s.numEntries s.files
  rw [hlen] at hcur
  -- all pages but one are written, and one slot of that one is free
  have hw : c.writes.length + 1 = m := by
    have h₁ : c.writes.length * g.perPage < m * g.perPage := by omega
    have h₂ : m * g.perPage < (c.writes.length + 2) * g.perPage := by
      rw [Nat.add_mul]
      omega
    have h₁ := Nat.lt_of_mul_lt_mul_right h₁
    have h₂ := Nat.lt_of_mul_lt_mul_right h₂
    omega
  have hm : m * g.perPage = c.writes.length * g.perPage + g.perPage := by
    rw [← hw, Nat.add_mul, Nat.one_mul]
  have hfree : c.cursor = g.pageSize - spifsEntryLength := by
    rw [spifsEntryLength]
    omega
  rw [if_pos (.of hfree)]
  rw [spifsEntryLength] at hfree
  refine ⟨_, rfl, by simp [hw], fun j hj => ?_⟩
  simp only [List.length_append, List.length_singleton] at hj
  rcases Nat.lt_or_ge j c.writes.length with hj' | hj'
  · rw [List.getElem_append_left hj']
    obtain ⟨haddr, hsl⟩ := hprog.written j hj'
    refine ⟨haddr, fun k hk => ?_⟩
    have hsome := hsl k hk
    rw [tocImage, List.getElem?_append_left (List.getElem?_eq_some_iff.1 hsome).1, hsome]
  · obtain rfl : j = c.writes.length := by omega
    rw [List.getElem_concat_length rfl]
    refine ⟨hprog.addr, fun k hk => ?_⟩
    rcases Nat.lt_or_ge (32 * k) c.cursor with hlt | hge
    · have hsome := hprog.page k hlt
      rw [tocImage, List.getElem?_append_left (List.getElem?_eq_some_iff.1 hsome).1, hsome,
        window_store_slot_of_le _ _ (by omega)]
    · -- the footer
      have hk : 32 * k = c.cursor := by omega
      rw [tocImage, List.getElem?_append_right (by omega), hlen,
        show c.writes.length * g.perPage + k - (s.numEntries + 1) = 0 by omega, hk,
        window_store_slot _ _ (length_tocFooter _), hprog.crc]
      rfl

/-! ### The device after writes -/

theorem applyWrites_of_not_mem {p : ℕ} (h : ∀ w ∈ writes, w.1 ≠ p) :
    applyWrites dev writes p = dev p := by
  induction writes generalizing dev with
  | nil => rfl
  | cons w writes ih =>
    rw [applyWrites, List.foldl_cons, ← applyWrites, ih fun w' hw' => h w' (List.mem_cons_of_mem _ hw'),
      spifsWritePage, Function.update_of_ne (h w List.mem_cons_self).symm]

/-- A page written once. -/
theorem applyWrites_getElem {j : ℕ} (hj : j < writes.length)
    (hlater : ∀ i (h : i < writes.length), j < i → writes[i].1 ≠ writes[j].1) :
    applyWrites dev writes writes[j].1 = writes[j].2 := by
  induction writes generalizing dev j with
  | nil => simp at hj
  | cons w writes ih =>
    rw [applyWrites, List.foldl_cons, ← applyWrites]
    cases j with
    | zero =>
      rw [applyWrites_of_not_mem]
      · exact Function.update_self _ _ _
      · intro w' hw'
        obtain ⟨i, hi, rfl⟩ := List.getElem_of_mem hw'
        exact hlater (i + 1) (by simpa using hi) (Nat.succ_pos i)
    | succ j =>
      exact ih (by simpa using hj) fun i hi hji =>
        hlater (i + 1) (by simpa using hi) (Nat.succ_lt_succ hji)

/-- The pages of an image, all written, hold it. -/
theorem holds_applyWrites (hl : Layout g m n) {image : List (List UInt8)}
    (himage : image.length = m * g.perPage)
    (h : Pages g m target image writes) : Holds g (applyWrites dev writes) target 0 image := by
  obtain ⟨hlen, hpages⟩ := h
  have hpp := hl.perPage_pos
  have hfits := hl.fits
  refine holds_iff.2 fun t ht => ?_
  rw [Nat.zero_add]
  have hj : t / g.perPage < writes.length := by
    rw [hlen]
    exact Nat.div_lt_of_lt_mul (by rw [Nat.mul_comm]; omega)
  obtain ⟨haddr, hslots⟩ := hpages _ hj
  have hslot := hslots (t % g.perPage) (Nat.mod_lt t hpp)
  rw [show t / g.perPage * g.perPage + t % g.perPage = t by
    rw [Nat.mul_comm]; exact Nat.div_add_mod t g.perPage, List.getElem?_eq_getElem ht] at hslot
  rw [Option.some.inj hslot, slotAt, ← haddr, applyWrites_getElem hj]
  intro i hi hji heq
  rw [(hpages i hi).1, haddr] at heq
  have := tocPageAt_injOn (by omega) (by omega) heq
  omega

end Spifs
end LittleKernel
