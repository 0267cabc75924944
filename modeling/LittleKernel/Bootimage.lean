/-
# Boot images

`lib/bootimage/bootimage.c`: `validate_bootimage`, `bootimage_open` and
`bootimage_get_file_section`, with the entries of `lib/bootimage_struct.h`.

A boot image starts with a page of 64 entries of 64 bytes: the first describes the page
itself and holds the digest of the rest of it, the second says how long the image is and
how many entries there are.  The others are walked up to that count, which nothing
compares with 64 or with the length of the buffer.

The image is the list of its bytes, and a read that is not all inside it gives `none`.
`bootimage_trusted_iff` says for which images the validation and all later lookups stay
inside, and hand out only sections whose digest is recorded in the page that was
validated.
-/

import LittleKernel.Mincrypt
import LittleKernel.Lib.Word

namespace LittleKernel
namespace Bootimage

open Bytes Mincrypt Word

/-! ### The entry table -/

/-- `KIND_FILE`. -/
def kindFile : ℕ := 0x656c6966

/-- `KIND_BOOT_INFO`. -/
def kindBootInfo : ℕ := 0x6f666e69

/-- `KIND_BOARD`. -/
def kindBoard : ℕ := 0x67726174

/-- `KIND_BUILD`. -/
def kindBuild : ℕ := 0x706d7473

/-- `TYPE_BOOT_IMAGE`. -/
def typeBootImage : ℕ := 0x746f6f62

/-- `BOOT_VERSION`. -/
def bootVersion : ℕ := 0x00010000

/-- `BOOT_MAGIC`: `<lk-boot-image>` and its NUL. -/
def bootMagic : List UInt8 :=
  [0x3c, 0x6c, 0x6b, 0x2d, 0x62, 0x6f, 0x6f, 0x74, 0x2d, 0x69, 0x6d, 0x61, 0x67, 0x65, 0x3e, 0]

inductive Status where
  | errInvalidArgs
  | errBadLen
  | errChecksumFail
  | errNotFound
deriving DecidableEq

/-- The `uint32_t` at a byte of the image. -/
def word (buf : List UInt8) (off : ℕ) : ℕ := ofLe (field buf off 4)

/-- The `n` bytes from `off` on; `none` when they are not all in the buffer. -/
def readBytes (buf : List UInt8) (off n : ℕ) : Option (List UInt8) :=
  if off + n ≤ buf.length then some (field buf off n) else none

def read32 (buf : List UInt8) (off : ℕ) : Option ℕ := (readBytes buf off 4).map ofLe

variable {buf : List UInt8} {imageSize i : ℕ}

theorem readBytes_of_le {off n : ℕ} (h : off + n ≤ buf.length) :
    readBytes buf off n = some (field buf off n) := if_pos h

theorem read32_of_le {off : ℕ} (h : off + 4 ≤ buf.length) :
    read32 buf off = some (word buf off) := by
  rw [read32, readBytes_of_le h]
  rfl

theorem read32_eq_none {off : ℕ} (h : ¬ off + 4 ≤ buf.length) :
    read32 buf off = none := by
  rw [read32, readBytes, if_neg h]
  rfl

/-- `be[i].kind`. -/
def kind (buf : List UInt8) (i : ℕ) : ℕ := word buf (64 * i)

/-- `be[i].file.type`. -/
def fileType (buf : List UInt8) (i : ℕ) : ℕ := word buf (64 * i + 4)

/-- `be[i].file.offset`. -/
def fileOffset (buf : List UInt8) (i : ℕ) : ℕ := word buf (64 * i + 8)

/-- `be[i].file.length`. -/
def fileLength (buf : List UInt8) (i : ℕ) : ℕ := word buf (64 * i + 12)

/-- `be[i].file.sha256`. -/
def fileSha256 (buf : List UInt8) (i : ℕ) : List UInt8 := field buf (64 * i + 32) 32

theorem word_lt (buf : List UInt8) (off : ℕ) : word buf off < 2 ^ 32 := by
  have := ofLe_field_lt buf off 4
  rw [word]
  omega

/-! ### Validation -/

/-- `bootentry_info`. -/
structure Info where
  imageSize : ℕ
  entryCount : ℕ
deriving DecidableEq

/-- `validate_bootimage` up to its loop. -/
def checkHeader (buf : List UInt8) : Option (Except Status Info) := do
  if buf.length < 4096 then return .error .errBadLen
  let kind₀ ← read32 buf 0
  let type ← read32 buf 4
  let offset ← read32 buf 8
  let length ← read32 buf 12
  let name ← readBytes buf 16 16
  if kind₀ ≠ kindFile ∨ type ≠ typeBootImage ∨ offset ≠ 0 ∨ length ≠ 4096 ∨ name ≠ bootMagic then
    return .error .errInvalidArgs
  let rest ← readBytes buf 64 (4096 - 64)
  let sha256 ← readBytes buf 32 32
  if sha256Hash rest ≠ sha256 then return .error .errChecksumFail
  let kind₁ ← read32 buf 64
  if kind₁ ≠ kindBootInfo then return .error .errInvalidArgs
  let version ← read32 buf 68
  if bootVersion < version then return .error .errInvalidArgs
  let imageSize ← read32 buf 72
  if buf.length < imageSize then return .error .errInvalidArgs
  let entryCount ← read32 buf 76
  return .ok ⟨imageSize, entryCount⟩

/-- The loop body of `validate_bootimage` on entry `i`; `false` ends the loop. -/
def checkEntry (buf : List UInt8) (imageSize i : ℕ) : Option (Except Status Bool) := do
  let kind ← read32 buf (64 * i)
  if kind = 0 then return .ok false
  if kind = kindBootInfo ∨ kind = kindBoard ∨ kind = kindBuild then return .ok true
  if kind ≠ kindFile then return .error .errInvalidArgs
  -- the type is printed
  let _type ← read32 buf (64 * i + 4)
  let offset ← read32 buf (64 * i + 8)
  let length ← read32 buf (64 * i + 12)
  if u32 (offset + length) < offset ∨ imageSize < u32 (offset + length) then
    return .error .errInvalidArgs
  let data ← readBytes buf offset length
  let sha256 ← readBytes buf (64 * i + 32) 32
  if sha256Hash data ≠ sha256 then return .error .errChecksumFail
  return .ok true

/-- The loop of `validate_bootimage` with `n` entries to go. -/
def checkEntries (buf : List UInt8) (imageSize : ℕ) : ℕ → ℕ → Option (Except Status Unit)
  | _, 0 => some (.ok ())
  | i, n + 1 =>
    match checkEntry buf imageSize i with
    | none => none
    | some (.error e) => some (.error e)
    | some (.ok false) => some (.ok ())
    | some (.ok true) => checkEntries buf imageSize (i + 1) n

/-- `bootimage_t`. -/
structure Image where
  ptr : List UInt8
  len : ℕ
deriving DecidableEq

/-- `validate_bootimage`, which trims the length to what the header says. -/
def validateBootimage (bi : Image) : Option (Except Status Image) :=
  match checkHeader bi.ptr with
  | none => none
  | some (.error e) => some (.error e)
  | some (.ok info) =>
    match checkEntries bi.ptr info.imageSize 2 (info.entryCount - 2) with
    | none => none
    | some (.error e) => some (.error e)
    | some (.ok ()) => some (.ok { bi with len := info.imageSize })

/-- `bootimage_open`. -/
def bootimageOpen (buf : List UInt8) : Option (Except Status Image) :=
  validateBootimage ⟨buf, buf.length⟩

/-- A section of the image, as an offset from its start. -/
structure Section where
  offset : ℕ
  length : ℕ
deriving DecidableEq

/-- The loop of `bootimage_get_file_section` with `n` entries to go. -/
def findSection (buf : List UInt8) (type : ℕ) : ℕ → ℕ → Option (Except Status Section)
  | _, 0 => some (.error .errNotFound)
  | i, n + 1 => do
    let kind ← read32 buf (64 * i)
    if kind = 0 then return .error .errNotFound
    if kind ≠ kindFile then findSection buf type (i + 1) n
    else
      let type' ← read32 buf (64 * i + 4)
      if type = type' then
        let offset ← read32 buf (64 * i + 8)
        let length ← read32 buf (64 * i + 12)
        return .ok ⟨offset, length⟩
      else findSection buf type (i + 1) n

/-- `bootimage_get_file_section`. -/
def bootimageGetFileSection (bi : Image) (type : ℕ) : Option (Except Status Section) := do
  let entryCount ← read32 bi.ptr 76
  findSection bi.ptr type 2 (entryCount - 2)

/-! ### What one entry's check does -/

/-- The section of a file entry lies in the image. -/
def SectionFits (buf : List UInt8) (imageSize i : ℕ) : Prop :=
  fileOffset buf i + fileLength buf i ≤ imageSize ∧
    fileOffset buf i + fileLength buf i < 2 ^ 32

/-- The bytes of the section have the recorded digest. -/
def DigestMatches (buf : List UInt8) (i : ℕ) : Prop :=
  sha256Hash (field buf (fileOffset buf i) (fileLength buf i)) = fileSha256 buf i

/-- What the check of entry `i` reads of it lies in the buffer. -/
def EntryInBuffer (buf : List UInt8) (imageSize i : ℕ) : Prop :=
  64 * i + 4 ≤ buf.length ∧
    (kind buf i = kindFile → 64 * i + 16 ≤ buf.length ∧
      (SectionFits buf imageSize i → 64 * i + 64 ≤ buf.length))

/-- The sum that wraps is smaller than its first part. -/
theorem sectionFits_iff (buf : List UInt8) (imageSize i : ℕ) :
    SectionFits buf imageSize i ↔ ¬ (u32 (fileOffset buf i + fileLength buf i) < fileOffset buf i ∨
        imageSize < u32 (fileOffset buf i + fileLength buf i)) := by
  have ho := word_lt buf (64 * i + 8)
  have hl := word_lt buf (64 * i + 12)
  unfold SectionFits u32
  unfold fileOffset fileLength
  omega

/-- The check of an entry of the first page, or of any other that lies in the buffer. -/
theorem checkEntry_eq (hsz : imageSize ≤ buf.length) (h : EntryInBuffer buf imageSize i) :
    (kind buf i = 0 ∧ checkEntry buf imageSize i = some (.ok false)) ∨
      (kind buf i ≠ 0 ∧ (kind buf i = kindFile → 64 * i + 64 ≤ buf.length ∧
          SectionFits buf imageSize i ∧ DigestMatches buf i) ∧
        checkEntry buf imageSize i = some (.ok true)) ∨
      ∃ e, checkEntry buf imageSize i = some (.error e) := by
  obtain ⟨h4, hfile⟩ := h
  have hread : read32 buf (64 * i) = some (kind buf i) := read32_of_le h4
  by_cases h0 : kind buf i = 0
  · exact .inl ⟨h0, by simp [checkEntry, hread, h0]⟩
  by_cases hk : kind buf i = kindBootInfo ∨ kind buf i = kindBoard ∨ kind buf i = kindBuild
  · refine .inr (.inl ⟨h0, fun hf => absurd hk (by rw [hf]; decide), ?_⟩)
    simp [checkEntry, hread, h0, hk]
  by_cases hf : kind buf i = kindFile
  swap
  · exact .inr (.inr ⟨_, by simp [checkEntry, hread, h0, hk, hf]; rfl⟩)
  obtain ⟨h16, h64⟩ := hfile hf
  have h0' : kindFile ≠ 0 := by decide
  have hk' : ¬ (kindFile = kindBootInfo ∨ kindFile = kindBoard ∨ kindFile = kindBuild) := by
    decide
  have htype : read32 buf (64 * i + 4) = some (fileType buf i) := read32_of_le (by omega)
  have hoff : read32 buf (64 * i + 8) = some (fileOffset buf i) := read32_of_le (by omega)
  have hlen : read32 buf (64 * i + 12) = some (fileLength buf i) := read32_of_le (by omega)
  by_cases hfits : SectionFits buf imageSize i
  swap
  · have hbad := not_not.mp (mt (sectionFits_iff buf imageSize i).mpr hfits)
    exact .inr (.inr ⟨_, by simp [checkEntry, hread, hf, h0', hk', htype, hoff, hlen, hbad]; rfl⟩)
  have hgood := (sectionFits_iff buf imageSize i).mp hfits
  have hend := h64 hfits
  have hdata := @readBytes_of_le buf _ _ (show fileOffset buf i + fileLength buf i ≤ _ from
    hfits.1.trans hsz)
  have hsha : readBytes buf (64 * i + 32) 32 = some (fileSha256 buf i) :=
    readBytes_of_le (by omega)
  by_cases hd : DigestMatches buf i
  · refine .inr (.inl ⟨h0, fun _ => ⟨hend, hfits, hd⟩, ?_⟩)
    unfold DigestMatches at hd
    simp [checkEntry, hread, hf, h0', hk', htype, hoff, hlen, hgood, hdata, hsha, hd]
  · unfold DigestMatches at hd
    exact .inr (.inr ⟨_, by
      simp [checkEntry, hread, hf, h0', hk', htype, hoff, hlen, hgood, hdata, hsha, hd]; rfl⟩)

theorem checkEntry_eq_none
    (h : ¬ EntryInBuffer buf imageSize i) : checkEntry buf imageSize i = none := by
  by_cases h4 : 64 * i + 4 ≤ buf.length
  swap
  · simp [checkEntry, read32_eq_none h4]
  have hread : read32 buf (64 * i) = some (kind buf i) := read32_of_le h4
  obtain ⟨hf, h⟩ : kind buf i = kindFile ∧ ¬ (64 * i + 16 ≤ buf.length ∧
      (SectionFits buf imageSize i → 64 * i + 64 ≤ buf.length)) := by
    by_contra hno
    exact h ⟨h4, fun hf => by_contra fun hne => hno ⟨hf, hne⟩⟩
  have h0 : kindFile ≠ 0 := by decide
  have hk : ¬ (kindFile = kindBootInfo ∨ kindFile = kindBoard ∨ kindFile = kindBuild) := by
    decide
  by_cases h16 : 64 * i + 16 ≤ buf.length
  swap
  · have hlen := @read32_eq_none buf (64 * i + 12) (by omega)
    cases htype : read32 buf (64 * i + 4) <;> cases hoff : read32 buf (64 * i + 8) <;>
      simp [checkEntry, hread, hf, h0, hk, htype, hoff, hlen]
  · have hfits : SectionFits buf imageSize i := by_contra fun hno => h ⟨h16, fun hs => absurd hs hno⟩
    have hend : ¬ 64 * i + 32 + 32 ≤ buf.length := fun hle => h ⟨h16, fun _ => by omega⟩
    have htype : read32 buf (64 * i + 4) = some (fileType buf i) := read32_of_le (by omega)
    have hoff : read32 buf (64 * i + 8) = some (fileOffset buf i) := read32_of_le (by omega)
    have hlen : read32 buf (64 * i + 12) = some (fileLength buf i) := read32_of_le (by omega)
    have hgood := (sectionFits_iff buf imageSize i).mp hfits
    have hsha : readBytes buf (64 * i + 32) 32 = none := if_neg hend
    simp [checkEntry, hread, hf, h0, hk, htype, hoff, hlen, hgood, hsha]

theorem checkEntry_eq_none_iff (hsz : imageSize ≤ buf.length) :
    checkEntry buf imageSize i = none ↔ ¬ EntryInBuffer buf imageSize i := by
  refine ⟨fun h hin => ?_, checkEntry_eq_none⟩
  rcases checkEntry_eq hsz hin with ⟨_, h'⟩ | ⟨_, _, h'⟩ | ⟨e, h'⟩ <;> rw [h] at h' <;> cases h'

/-- An entry that ends the walk. -/
theorem checkEntry_stop (hsz : imageSize ≤ buf.length)
    (h : checkEntry buf imageSize i = some (.ok false)) :
    64 * i + 4 ≤ buf.length ∧ kind buf i = 0 := by
  have hin : EntryInBuffer buf imageSize i := by
    by_contra hno
    rw [checkEntry_eq_none hno] at h
    cases h
  rcases checkEntry_eq hsz hin with ⟨h0, _⟩ | ⟨_, _, h'⟩ | ⟨e, h'⟩
  · exact ⟨hin.1, h0⟩
  · rw [h] at h'
    cases h'
  · rw [h] at h'
    cases h'

/-- An entry that the walk goes past: if it is a file, its section lies in the image and
has the recorded digest. -/
theorem checkEntry_go (hsz : imageSize ≤ buf.length)
    (h : checkEntry buf imageSize i = some (.ok true)) :
    64 * i + 4 ≤ buf.length ∧ kind buf i ≠ 0 ∧
      (kind buf i = kindFile → 64 * i + 64 ≤ buf.length ∧ SectionFits buf imageSize i ∧
        DigestMatches buf i) := by
  have hin : EntryInBuffer buf imageSize i := by
    by_contra hno
    rw [checkEntry_eq_none hno] at h
    cases h
  rcases checkEntry_eq hsz hin with ⟨_, h'⟩ | ⟨h0, hfile, _⟩ | ⟨e, h'⟩
  · rw [h] at h'
    cases h'
  · exact ⟨hin.1, h0, hfile⟩
  · rw [h] at h'
    cases h'

/-! ### The walks -/

/-- The walk that starts at entry `i` comes to entry `j`. -/
def Reached (buf : List UInt8) (imageSize i j : ℕ) : Prop :=
  i ≤ j ∧ ∀ k, i ≤ k → k < j → checkEntry buf imageSize k = some (.ok true)

theorem Reached.refl (buf : List UInt8) (imageSize i : ℕ) : Reached buf imageSize i i :=
  ⟨le_refl i, fun _ h h' => absurd h' (by omega)⟩

/-- A walk that goes on comes to what the walk from the next entry comes to. -/
theorem reached_succ {imageSize i j : ℕ} (h : checkEntry buf imageSize i = some (.ok true)) :
    Reached buf imageSize (i + 1) j → Reached buf imageSize i j := by
  rintro ⟨hle, hall⟩
  refine ⟨by omega, fun k hk hkj => ?_⟩
  rcases eq_or_lt_of_le hk with rfl | hlt
  · exact h
  · exact hall k hlt hkj

theorem Reached.tail {imageSize i j : ℕ} (h : Reached buf imageSize i j)
    (hne : i ≠ j) : Reached buf imageSize (i + 1) j :=
  ⟨by have := h.1; omega, fun k hk hkj => h.2 k (by omega) hkj⟩

/-- A walk that does not go on comes to its first entry only. -/
theorem Reached.eq_of_not_go {imageSize i j : ℕ}
    (h : Reached buf imageSize i j) (hno : checkEntry buf imageSize i ≠ some (.ok true)) :
    j = i := by
  by_contra hne
  exact hno (h.2 i (le_refl i) (by have := h.1; omega))

/-- All entries that the walk of `n` entries comes to are good. -/
def Good (buf : List UInt8) (imageSize i n : ℕ) : Prop :=
  ∀ j, j < i + n → Reached buf imageSize i j →
    checkEntry buf imageSize j = some (.ok true) ∨ checkEntry buf imageSize j = some (.ok false)

theorem Good.tail {imageSize i n : ℕ} (h : Good buf imageSize i (n + 1))
    (hgo : checkEntry buf imageSize i = some (.ok true)) : Good buf imageSize (i + 1) n :=
  fun j hj hr => h j (by omega) (reached_succ hgo hr)

/-- The loop reads outside the image exactly at an entry that it comes to and that does. -/
theorem checkEntries_eq_none_iff {imageSize i n : ℕ} :
    checkEntries buf imageSize i n = none ↔
      ∃ j, j < i + n ∧ Reached buf imageSize i j ∧ checkEntry buf imageSize j = none := by
  induction n generalizing i with
  | zero =>
    refine iff_of_false (by simp [checkEntries]) ?_
    rintro ⟨j, hj, hr, _⟩
    have := hr.1
    omega
  | succ n ih =>
    rw [checkEntries]
    by_cases hgo : checkEntry buf imageSize i = some (.ok true)
    · simp only [hgo]
      rw [ih]
      constructor
      · rintro ⟨j, hj, hr, hn⟩
        exact ⟨j, by omega, reached_succ hgo hr, hn⟩
      · rintro ⟨j, hj, hr, hn⟩
        refine ⟨j, by omega, hr.tail ?_, hn⟩
        rintro rfl
        rw [hgo] at hn
        cases hn
    · constructor
      · intro h
        refine ⟨i, by omega, Reached.refl _ _ _, ?_⟩
        split at h
        · assumption
        · cases h
        · cases h
        · exact absurd ‹_› hgo
      · rintro ⟨j, _, hr, hn⟩
        cases hr.eq_of_not_go hgo
        rw [hn]

theorem checkEntries_eq_ok_iff {imageSize i n : ℕ} :
    checkEntries buf imageSize i n = some (.ok ()) ↔ Good buf imageSize i n := by
  induction n generalizing i with
  | zero =>
    refine iff_of_true rfl fun j hj hr => ?_
    have := hr.1
    omega
  | succ n ih =>
    rw [checkEntries]
    by_cases hgo : checkEntry buf imageSize i = some (.ok true)
    · simp only [hgo]
      rw [ih]
      refine ⟨fun h j hj hr => ?_, fun h => h.tail hgo⟩
      by_cases hij : i = j
      · subst hij
        exact .inl hgo
      · exact h j (by omega) (hr.tail hij)
    · constructor
      · intro h j _ hr
        cases hr.eq_of_not_go hgo
        split at h
        · cases h
        · cases h
        · exact .inr ‹_›
        · exact absurd ‹_› hgo
      · intro h
        rcases h i (by omega) (Reached.refl _ _ _) with hgo' | hstop
        · exact absurd hgo' hgo
        · rw [hstop]

/-- A file entry of the given type. -/
def IsFile (buf : List UInt8) (type j : ℕ) : Prop :=
  kind buf j = kindFile ∧ fileType buf j = type

/-- The first file entry of a type that a walk comes to. -/
def FirstFile (buf : List UInt8) (imageSize type i j : ℕ) : Prop :=
  Reached buf imageSize i j ∧ IsFile buf type j ∧ ∀ k, i ≤ k → k < j → ¬ IsFile buf type k

/-- **The lookup.** In a good table it gives the section of the first file entry of the
type, if there is one, and is told that there is none otherwise. -/
theorem findSection_spec {imageSize type i n : ℕ}
    (hsz : imageSize ≤ buf.length) (hgood : Good buf imageSize i n) :
    (∃ j, j < i + n ∧ FirstFile buf imageSize type i j ∧
      checkEntry buf imageSize j = some (.ok true) ∧
      findSection buf type i n = some (.ok ⟨fileOffset buf j, fileLength buf j⟩)) ∨
    ((∀ j, j < i + n → Reached buf imageSize i j → ¬ IsFile buf type j) ∧
      findSection buf type i n = some (.error .errNotFound)) := by
  induction n generalizing i with
  | zero =>
    refine .inr ⟨fun j hj hr => ?_, rfl⟩
    have := hr.1
    omega
  | succ n ih =>
    have hhere := hgood i (by omega) (Reached.refl _ _ _)
    rcases hhere with hgo | hstop
    · obtain ⟨h4, h0, hfile⟩ := checkEntry_go hsz hgo
      have hread : read32 buf (64 * i) = some (kind buf i) := read32_of_le h4
      by_cases hf : IsFile buf type i
      · -- the entry is what is looked for
        obtain ⟨h64, _⟩ := hfile hf.1
        have htype : read32 buf (64 * i + 4) = some (fileType buf i) := read32_of_le (by omega)
        have hoff : read32 buf (64 * i + 8) = some (fileOffset buf i) := read32_of_le (by omega)
        have hlen : read32 buf (64 * i + 12) = some (fileLength buf i) :=
          read32_of_le (by omega)
        have hk : kindFile ≠ 0 := by decide
        refine .inl ⟨i, by omega, ⟨Reached.refl _ _ _, hf, fun k _ _ => by omega⟩, hgo, ?_⟩
        simp [findSection, hread, hf.1, hk, htype, hf.2, hoff, hlen]
      · -- the walk goes on
        have hnext : findSection buf type i (n + 1) = findSection buf type (i + 1) n := by
          by_cases hk : kind buf i = kindFile
          · obtain ⟨h64, _⟩ := hfile hk
            have htype : read32 buf (64 * i + 4) = some (fileType buf i) :=
              read32_of_le (by omega)
            have hne : ¬ type = fileType buf i := fun he => hf ⟨hk, he.symm⟩
            have hk0 : kindFile ≠ 0 := by decide
            simp [findSection, hread, hk, hk0, htype, hne]
          · simp [findSection, hread, h0, hk]
        rcases ih (hgood.tail hgo) with ⟨j, hj, ⟨hr, hjf, hfirst⟩, hjgo, hres⟩ | ⟨hnone, hres⟩
        · refine .inl ⟨j, by omega, ⟨reached_succ hgo hr, hjf, fun k hk hkj => ?_⟩, hjgo, ?_⟩
          · rcases eq_or_lt_of_le hk with rfl | hlt
            · exact hf
            · exact hfirst k hlt hkj
          · rw [hnext, hres]
        · refine .inr ⟨fun j hj hr => ?_, by rw [hnext, hres]⟩
          by_cases hij : i = j
          · subst hij
            exact hf
          · exact hnone j (by omega) (hr.tail hij)
    · obtain ⟨h4, h0⟩ := checkEntry_stop hsz hstop
      have hread : read32 buf (64 * i) = some (kind buf i) := read32_of_le h4
      refine .inr ⟨fun j _ hr hf => ?_, by simp [findSection, hread, h0]⟩
      cases hr.eq_of_not_go (by rw [hstop]; simp)
      have := hf.1
      rw [h0] at this
      exact absurd this (by decide)

/-! ### The header -/

/-- What the header check does on a buffer that holds a page: it reads inside of it. -/
theorem checkHeader_eq (h : 4096 ≤ buf.length) :
    checkHeader buf = some (.ok ⟨word buf 72, word buf 76⟩) ∧ word buf 72 ≤ buf.length ∨
      ∃ e, checkHeader buf = some (.error e) := by
  have h0 := @read32_of_le buf 0 (by omega)
  have h4 := @read32_of_le buf 4 (by omega)
  have h8 := @read32_of_le buf 8 (by omega)
  have h12 := @read32_of_le buf 12 (by omega)
  have h16 := @readBytes_of_le buf 16 16 (by omega)
  obtain ⟨rest, hrest⟩ : ∃ rest, readBytes buf 64 (4096 - 64) = some rest :=
    ⟨_, readBytes_of_le (by omega)⟩
  have h32 := @readBytes_of_le buf 32 32 (by omega)
  have h64 := @read32_of_le buf 64 (by omega)
  have h68 := @read32_of_le buf 68 (by omega)
  have h72 := @read32_of_le buf 72 (by omega)
  have h76 := @read32_of_le buf 76 (by omega)
  have hlen : ¬ buf.length < 4096 := by omega
  simp only [checkHeader, h0, h4, h8, h12, h16, hrest, h32, h64, h68, h72, h76, hlen, if_false,
    Option.pure_def, Option.bind_eq_bind, Option.bind_some]
  split
  · exact .inr ⟨_, rfl⟩
  split
  · exact .inr ⟨_, rfl⟩
  split
  · exact .inr ⟨_, rfl⟩
  split
  · exact .inr ⟨_, rfl⟩
  split
  · exact .inr ⟨_, rfl⟩
  · exact .inl ⟨rfl, not_lt.mp ‹_›⟩

theorem checkHeader_ne_none (buf : List UInt8) : checkHeader buf ≠ none := by
  by_cases h : 4096 ≤ buf.length
  · rcases checkHeader_eq h with ⟨h', _⟩ | ⟨e, h'⟩ <;> rw [h'] <;> simp
  · simp [checkHeader, not_le.mp h]

variable {info : Info}

/-- What an accepted header says. -/
theorem checkHeader_ok (h : checkHeader buf = some (.ok info)) :
    4096 ≤ buf.length ∧ info.imageSize ≤ buf.length ∧ info.entryCount = word buf 76 := by
  by_cases hlen : 4096 ≤ buf.length
  · rcases checkHeader_eq hlen with ⟨h', hle⟩ | ⟨e, h'⟩ <;> rw [h] at h'
    · cases h'
      exact ⟨hlen, hle, rfl⟩
    · cases h'
  · simp [checkHeader, not_le.mp hlen] at h

/-! ### Trusting an image -/

/-- A section and its digest are recorded in the page that the header check validates. -/
def Recorded (buf : List UInt8) (type : ℕ) (s : Section) : Prop :=
  ∃ i, 2 ≤ i ∧ i < 64 ∧ IsFile buf type i ∧ fileOffset buf i = s.offset ∧
    fileLength buf i = s.length ∧ sha256Hash (field buf s.offset s.length) = fileSha256 buf i

/-- Opening the image reads inside the buffer, and when it succeeds, so does every later
lookup; each section it returns lies in the image and has the digest that the validated
page records for it. -/
def Trusted (buf : List UInt8) : Prop :=
  bootimageOpen buf ≠ none ∧
    ∀ bi, bootimageOpen buf = some (.ok bi) → ∀ type,
      bootimageGetFileSection bi type ≠ none ∧
        ∀ s, bootimageGetFileSection bi type = some (.ok s) →
          s.offset + s.length ≤ bi.len ∧ Recorded buf type s

/-- Beyond the first page, the walk reads only what lies in the buffer, and a good table has
no file whose type the first page does not have. -/
def WalkOk (buf : List UInt8) : Prop :=
  ∀ info, checkHeader buf = some (.ok info) →
    ∀ i, 64 ≤ i → i < info.entryCount → Reached buf info.imageSize 2 i →
      EntryInBuffer buf info.imageSize i ∧
        (Good buf info.imageSize 2 (info.entryCount - 2) → kind buf i = kindFile →
          ∃ j, 2 ≤ j ∧ j < 64 ∧ IsFile buf (fileType buf i) j)

/-- An entry of the first page lies in the buffer. -/
theorem entryInBuffer_of_lt (h : 4096 ≤ buf.length) (hi : i < 64) : EntryInBuffer buf imageSize i :=
  ⟨by omega, fun _ => ⟨by omega, fun _ => by omega⟩⟩

theorem bootimageOpen_of_header
    (h : checkHeader buf = some (.ok info)) :
    bootimageOpen buf = match checkEntries buf info.imageSize 2 (info.entryCount - 2) with
      | none => none
      | some (.error e) => some (.error e)
      | some (.ok ()) => some (.ok ⟨buf, info.imageSize⟩) := by
  rw [bootimageOpen, validateBootimage]
  simp only [h]

theorem bootimageOpen_eq_none_iff :
    bootimageOpen buf = none ↔ ∃ info, checkHeader buf = some (.ok info) ∧
      checkEntries buf info.imageSize 2 (info.entryCount - 2) = none := by
  constructor
  · intro h
    cases hh : checkHeader buf with
    | none => exact absurd hh (checkHeader_ne_none buf)
    | some r =>
      cases r with
      | error e => simp [bootimageOpen, validateBootimage, hh] at h
      | ok info =>
        refine ⟨info, rfl, ?_⟩
        rw [bootimageOpen_of_header hh] at h
        split at h
        · assumption
        · cases h
        · cases h
  · rintro ⟨info, hh, hn⟩
    rw [bootimageOpen_of_header hh, hn]

theorem bootimageOpen_eq_ok_iff {bi : Image} :
    bootimageOpen buf = some (.ok bi) ↔ ∃ info, checkHeader buf = some (.ok info) ∧
      Good buf info.imageSize 2 (info.entryCount - 2) ∧ bi = ⟨buf, info.imageSize⟩ := by
  constructor
  · intro h
    cases hh : checkHeader buf with
    | none => exact absurd hh (checkHeader_ne_none buf)
    | some r =>
      cases r with
      | error e => simp [bootimageOpen, validateBootimage, hh] at h
      | ok info =>
        refine ⟨info, rfl, ?_⟩
        rw [bootimageOpen_of_header hh] at h
        split at h
        · cases h
        · cases h
        · cases h
          exact ⟨checkEntries_eq_ok_iff.mp ‹_›, rfl⟩
  · rintro ⟨info, hh, hg, rfl⟩
    rw [bootimageOpen_of_header hh, checkEntries_eq_ok_iff.mpr hg]

theorem bootimageGetFileSection_eq {len : ℕ} (h : checkHeader buf = some (.ok info)) (type : ℕ) :
    bootimageGetFileSection ⟨buf, len⟩ type = findSection buf type 2 (info.entryCount - 2) := by
  obtain ⟨hlen, _, hcount⟩ := checkHeader_ok h
  rw [bootimageGetFileSection, read32_of_le (by simp only; omega), hcount]
  rfl

/-- **Boot images.** The validation and all later lookups stay inside the buffer and return
only sections that the validated page vouches for if and only if the walk past that page
stays in the buffer and finds no new type of file there. -/
theorem bootimage_trusted_iff (buf : List UInt8) : Trusted buf ↔ WalkOk buf := by
  constructor
  · rintro ⟨hopen, hget⟩ info hh i hi hcount hr
    obtain ⟨hlen, hsz, _⟩ := checkHeader_ok hh
    constructor
    · by_contra hno
      exact hopen (bootimageOpen_eq_none_iff.mpr ⟨info, hh, checkEntries_eq_none_iff.mpr
        ⟨i, by omega, hr, (checkEntry_eq_none_iff hsz).mpr hno⟩⟩)
    · intro hgood hf
      have hok := bootimageOpen_eq_ok_iff.mpr ⟨info, hh, hgood, rfl⟩
      obtain ⟨_, hsec⟩ := hget _ hok (fileType buf i)
      rw [bootimageGetFileSection_eq hh] at hsec
      rcases @findSection_spec _ _ (fileType buf i) _ _ hsz hgood with
        ⟨j, _, _, _, hres⟩ | ⟨hnone, _⟩
      · obtain ⟨_, k, hk, hk64, hkf, _⟩ := hsec _ hres
        exact ⟨k, hk, hk64, hkf⟩
      · exact absurd ⟨hf, rfl⟩ (hnone i (by omega) hr)
  · intro hw
    constructor
    · intro hnone
      obtain ⟨info, hh, hn⟩ := bootimageOpen_eq_none_iff.mp hnone
      obtain ⟨hlen, hsz, _⟩ := checkHeader_ok hh
      obtain ⟨j, hj, hr, hjn⟩ := checkEntries_eq_none_iff.mp hn
      refine (checkEntry_eq_none_iff hsz).mp hjn ?_
      by_cases hj64 : j < 64
      · exact entryInBuffer_of_lt hlen hj64
      · have := hr.1
        exact (hw info hh j (by omega) (by omega) hr).1
    · intro bi hok type
      obtain ⟨info, hh, hgood, rfl⟩ := bootimageOpen_eq_ok_iff.mp hok
      obtain ⟨hlen, hsz, _⟩ := checkHeader_ok hh
      rw [bootimageGetFileSection_eq hh]
      rcases @findSection_spec _ _ type _ _ hsz hgood with
        ⟨j, hj, ⟨hr, hjf, hfirst⟩, hgo, hres⟩ | ⟨_, hres⟩
      · obtain ⟨_, _, hfile⟩ := checkEntry_go hsz hgo
        obtain ⟨_, hfits, hdigest⟩ := hfile hjf.1
        rw [hres]
        refine ⟨by simp, fun s hs => ?_⟩
        cases hs
        refine ⟨hfits.1, j, hr.1, ?_, hjf, rfl, rfl, hdigest⟩
        -- a file behind the first page would have a file of its type before it
        by_contra hj64
        have := hr.1
        obtain ⟨k, hk, hk64, hkf⟩ := (hw info hh j (by omega) (by omega) hr).2 hgood hjf.1
        rw [hjf.2] at hkf
        exact hfirst k hk (by omega) hkf
      · rw [hres]
        exact ⟨by simp, by simp⟩

/-! ### An image whose table does not end -/

/-- The second entry of an image of one page whose table counts 65 entries. -/
def secondEntry : List UInt8 :=
  le 4 kindBootInfo ++ le 4 bootVersion ++ le 4 4096 ++ le 4 65 ++ List.replicate 48 0

def boardEntry : List UInt8 := le 4 kindBoard ++ List.replicate 60 0

/-- 62 board entries fill the first page. -/
def boardPage : List UInt8 := secondEntry ++ (List.replicate 62 boardEntry).flatten

/-- The first entry up to its digest. -/
def firstFields : List UInt8 :=
  le 4 kindFile ++ le 4 typeBootImage ++ le 4 0 ++ le 4 4096 ++ bootMagic

/-- The first entry of a page: its digest is that of the rest. -/
def firstEntry (rest : List UInt8) : List UInt8 := firstFields ++ sha256Hash rest

/-- A page with the right header and nothing behind it. -/
def boardImage : List UInt8 := firstEntry boardPage ++ boardPage

@[simp] theorem length_firstEntry (rest : List UInt8) : (firstEntry rest).length = 64 := by
  have h : firstFields.length = 32 := by decide
  simp [firstEntry, h]

theorem length_boardPage : boardPage.length = 4032 := by
  have h₁ : secondEntry.length = 64 := by decide
  have h₂ : boardEntry.length = 64 := by decide
  rw [boardPage, List.length_append, List.length_flatten, List.map_replicate,
    List.sum_replicate_nat, h₁, h₂]

theorem length_boardImage : boardImage.length = 4096 := by
  rw [boardImage, List.length_append, length_firstEntry, length_boardPage]

theorem kind_boardImage {i : ℕ} (hi : 2 ≤ i) (hi64 : i < 64) : kind boardImage i = kindBoard := by
  obtain ⟨k, rfl⟩ : ∃ k, i = k + 2 := ⟨i - 2, by omega⟩
  have h₁ : secondEntry.length = 64 := by decide
  have h₂ : boardEntry.length = 64 := by decide
  have hpage := field_append_right (firstEntry boardPage) boardPage (64 + 64 * k) 4
  have hrow := field_append_right secondEntry (List.replicate 62 boardEntry).flatten (64 * k) 4
  have hentry := field_flatten_replicate (b := boardEntry) (n := 4) (m := 62) (i := k)
    (by omega) (by omega)
  rw [length_firstEntry] at hpage
  rw [h₁] at hrow
  rw [h₂] at hentry
  rw [kind, word, show 64 * (k + 2) = 64 + (64 + 64 * k) by omega, boardImage, hpage, boardPage,
    hrow, hentry]
  decide

/-- A field of the second entry. -/
theorem word_secondEntry {off : ℕ} (h : off + 4 ≤ 64) :
    word boardImage (64 + off) = word secondEntry off := by
  have h₁ : secondEntry.length = 64 := by decide
  have hpage := field_append_right (firstEntry boardPage) boardPage off 4
  rw [length_firstEntry] at hpage
  rw [word, boardImage, hpage, boardPage, field_append_left _ (by omega), word]

/-- A field of the first entry. -/
theorem field_firstFields {off n : ℕ} (h : off + n ≤ 32) :
    field boardImage off n = field firstFields off n := by
  have h₁ : firstFields.length = 32 := by decide
  rw [boardImage, field_append_left _ (by rw [length_firstEntry]; omega), firstEntry,
    field_append_left _ (by omega)]

theorem sha256_boardImage : field boardImage 32 32 = sha256Hash boardPage := by
  have h₁ : firstFields.length = 32 := by decide
  have h := field_append firstFields (sha256Hash boardPage) boardPage
  rwa [h₁, length_sha256Hash, ← List.append_assoc] at h

theorem rest_boardImage : field boardImage 64 4032 = boardPage := by
  have h := field_append (firstEntry boardPage) boardPage []
  rwa [length_firstEntry, length_boardPage, List.append_nil] at h

theorem checkHeader_boardImage : checkHeader boardImage = some (.ok ⟨4096, 65⟩) := by
  have hlen := length_boardImage
  have hread : ∀ off, off + 4 ≤ 4096 → read32 boardImage off = some (word boardImage off) :=
    fun off h => read32_of_le (by omega)
  have h0 : word boardImage 0 = kindFile := by rw [word, field_firstFields (by omega)]; decide
  have h4 : word boardImage 4 = typeBootImage := by
    rw [word, field_firstFields (by omega)]; decide
  have h8 : word boardImage 8 = 0 := by rw [word, field_firstFields (by omega)]; decide
  have h12 : word boardImage 12 = 4096 := by rw [word, field_firstFields (by omega)]; decide
  have h16 : readBytes boardImage 16 16 = some bootMagic := by
    rw [readBytes_of_le (by omega), field_firstFields (by omega)]; decide
  obtain ⟨page, hrest, h32⟩ : ∃ page, readBytes boardImage 64 (4096 - 64) = some page ∧
      readBytes boardImage 32 32 = some (sha256Hash page) := by
    refine ⟨boardPage, ?_, ?_⟩
    · rw [show 4096 - 64 = 4032 from rfl, readBytes_of_le (by omega), rest_boardImage]
    · rw [readBytes_of_le (by omega), sha256_boardImage]
  have h64 : word boardImage 64 = kindBootInfo := by
    rw [@word_secondEntry 0 (by omega)]; decide
  have h68 : word boardImage 68 = bootVersion := by
    rw [@word_secondEntry 4 (by omega)]; decide
  have h72 : word boardImage 72 = 4096 := by
    rw [@word_secondEntry 8 (by omega)]; decide
  have h76 : word boardImage 76 = 65 := by
    rw [@word_secondEntry 12 (by omega)]; decide
  simp only [checkHeader, hread _ (show 0 + 4 ≤ 4096 by omega),
    hread _ (show 4 + 4 ≤ 4096 by omega), hread _ (show 8 + 4 ≤ 4096 by omega),
    hread _ (show 12 + 4 ≤ 4096 by omega), hread _ (show 64 + 4 ≤ 4096 by omega),
    hread _ (show 68 + 4 ≤ 4096 by omega), hread _ (show 72 + 4 ≤ 4096 by omega),
    hread _ (show 76 + 4 ≤ 4096 by omega), h0, h4, h8, h12, h16, hrest, h32, h64, h68, h72, h76,
    hlen, ne_eq, not_true_eq_false, or_self, lt_self_iff_false, if_false, Option.pure_def,
    Option.bind_eq_bind, Option.bind_some]

/-- The validation reads past the end of the buffer: entry 64 would start right behind
the page. -/
theorem boardImage_not_trusted : bootimageOpen boardImage = none ∧ ¬ Trusted boardImage := by
  have hgo : ∀ k, 2 ≤ k → k < 64 → checkEntry boardImage 4096 k = some (.ok true) := by
    intro k hk hk64
    have hlen := length_boardImage
    have hread : read32 boardImage (64 * k) = some kindBoard := by
      rw [read32_of_le (by omega)]
      exact congrArg some (kind_boardImage hk hk64)
    have h0 : kindBoard ≠ 0 := by decide
    simp [checkEntry, hread, h0]
  have hnone : checkEntry boardImage 4096 64 = none := by
    refine checkEntry_eq_none fun h => ?_
    have := h.1
    rw [length_boardImage] at this
    omega
  have hopen : bootimageOpen boardImage = none :=
    bootimageOpen_eq_none_iff.mpr ⟨_, checkHeader_boardImage, checkEntries_eq_none_iff.mpr
      ⟨64, by simp, ⟨by omega, fun k hk hk64 => hgo k hk hk64⟩, hnone⟩⟩
  exact ⟨hopen, fun h => h.1 hopen⟩

end Bootimage
end LittleKernel
