/-
# Updating the PIT

`lib/gpt/pit.c`: `pit_update`, `pit_save_pit`; and when updates of the two kinds of tables are all
or nothing.

`pit_update` looks at the size before it does anything.  Whatever it turns away afterwards has been
copied over the table in memory, and from the layout on the image has been written as well.
-/

import LittleKernel.Gpt.Create
import LittleKernel.Gpt.Update

namespace LittleKernel
namespace Pit

open Memory Word Bytes

/-- `pit`, `gpt_if`, `pit_blk_cnt` and `pit_buf`, and the bytes of the device. -/
structure PitState where
  pit : PitInfo
  gptIf : GptInfo
  pitBlkCnt : ℕ
  pitBuf : ℕ → UInt8
  dev : ℕ → UInt8

/-- How the calls of an update come out; `pitDev` says whether `pit_open_dev` finds the device. -/
structure PitEnv extends Env where
  pitDev : Bool

/-- "pit". -/
def pitName : CString := ⟨[112, 105, 116], by decide⟩

/-- `pit_update`; that `pit_save_pit` fails is not looked at. -/
def pitUpdate (d : Dev) (env : PitEnv) (s : PitState) (buf : ℕ → UInt8) (size : ℕ) :
    CreateEnd × PitState :=
  if pitSizeLimit < size then (.rejected, s)
  else
    let s := { s with pit := PitInfo.load buf }
    if ¬pitCheckHeader s.pit then (.rejected, s)
    else
      match pitGetPartInfo s.pit pitName with
      | none => (.rejected, s)
      | some ptn =>
        let s := { s with pitBlkCnt := ptn.blknum, pitBuf := copy s.pitBuf 0 buf 0 pitInfoSize }
        if ¬env.pitDev then (.rejected, s)
        else
          let s := { s with
            dev := (newWrite env.toEnv 0 s.dev s.pitBuf pitDiskLoc s.pitBlkCnt).2 }
          let (pit, gptIf, ok) := pitLbaCumulation d (fun _ _ => false) s.pit s.gptIf
          let s := { s with pit := pit, gptIf := gptIf }
          if ¬ok then (.rejected, s)
          else
            let r := gptCreate d env.toEnv 1 s.dev s.pit s.gptIf
            (r.1, { s with dev := r.2 })

/-! ### All or nothing -/

/-- The layout of a table, and whether there is one. -/
def layout (d : Dev) (p : PitInfo) : PitInfo × GptInfo × Bool :=
  pitLbaCumulation d (fun _ _ => false) p ⟨0, 0, 0⟩

/-- Every check that follows the one of the size: the header, the partition of the table itself, the
device, the layout, and that the GPT partitions end before the last usable block. -/
structure Passes (d : Dev) (env : PitEnv) (p : PitInfo) : Prop where
  header : pitCheckHeader p
  pit : (pitGetPartInfo p pitName).isSome
  pitDev : env.pitDev = true
  layout : (layout d p).2.2 = true
  ready : env.opens = true ∧ env.alloc = true
  entries : ∃ h es, setGptHeader d (Pit.layout d p).2.1 = some h ∧
    setPartitionTable d (u32 h.endLba) (Pit.layout d p).1 (Pit.layout d p).1.count 0
      (u32 h.startLba) [] = some es

/-- An image that is turned away leaves the table in memory, what a name stands for, and the device
as they were. -/
def AllOrNothing (d : Dev) (env : PitEnv) (buf : ℕ → UInt8) (size : ℕ) : Prop :=
  ∀ s, (pitUpdate d env s buf size).1 = .rejected → (pitUpdate d env s buf size).2 = s ∧
    ∀ name, pitGetPartInfo (pitUpdate d env s buf size).2.pit name = pitGetPartInfo s.pit name

/-- What `gpt_if` was does not matter to the layout. -/
theorem pitLbaCumulation_eq_layout (d : Dev) (p : PitInfo) (gi : GptInfo) :
    (pitLbaCumulation d (fun _ _ => false) p gi).1 = (layout d p).1 ∧
      (pitLbaCumulation d (fun _ _ => false) p gi).2.2 = (layout d p).2.2 ∧
      ((layout d p).2.2 = true →
        (pitLbaCumulation d (fun _ _ => false) p gi).2.1 = (layout d p).2.1) := by
  unfold layout pitLbaCumulation pitCheckInfoGpt
  rcases pitCheckInfo 0 p.count p 0 pitDiskLoc with ⟨q, _ | ⟨idx, lba⟩⟩
  · simp
  · dsimp only
    rcases gptScan q (q.count - idx) idx none false 0 with _ | ⟨last, r, total⟩
    · simp
    · simp [remainedBlknum]

variable {d : Dev} {env : PitEnv} {buf : ℕ → UInt8} {size : ℕ}

/-- **An image that passes** is turned away by no check. -/
theorem pitUpdate_of_passes (hsize : size ≤ pitSizeLimit) (h : Passes d env (PitInfo.load buf))
    (s : PitState) : (pitUpdate d env s buf size).1 ≠ .rejected := by
  obtain ⟨hheader, hpit, hdev, hlayout, hready, hdr, es, hhdr, hes⟩ := h
  obtain ⟨ptn, hptn⟩ := Option.isSome_iff_exists.1 hpit
  obtain ⟨h₁, h₂, h₃⟩ := pitLbaCumulation_eq_layout d (PitInfo.load buf) s.gptIf
  simp only [pitUpdate, if_neg (Nat.not_lt.2 hsize), if_neg (not_not.2 hheader), hptn, hdev,
    not_true_eq_false, if_false, h₁, h₂, h₃ hlayout, hlayout, gptCreate, hready.1, hready.2,
    and_self, hhdr, hes]
  split_ifs <;> simp

/-- **An image that does not pass** is the table in memory when it is turned away, or its layout
is. -/
theorem pitUpdate_of_not_passes (hsize : size ≤ pitSizeLimit)
    (h : ¬Passes d env (PitInfo.load buf)) (s : PitState) :
    (pitUpdate d env s buf size).1 = .rejected ∧
      ((pitUpdate d env s buf size).2.pit = PitInfo.load buf ∨
        (pitUpdate d env s buf size).2.pit = (layout d (PitInfo.load buf)).1) := by
  obtain ⟨h₁, h₂, h₃⟩ := pitLbaCumulation_eq_layout d (PitInfo.load buf) s.gptIf
  unfold pitUpdate
  rw [if_neg (Nat.not_lt.2 hsize)]
  by_cases hheader : pitCheckHeader (PitInfo.load buf)
  swap
  · exact ⟨by simp [hheader], .inl (by simp [hheader])⟩
  cases hptn : pitGetPartInfo (PitInfo.load buf) pitName with
  | none => exact ⟨by simp [hheader, hptn], .inl (by simp [hheader, hptn])⟩
  | some ptn =>
    by_cases hdev : env.pitDev = true
    swap
    · exact ⟨by simp [hheader, hptn, hdev], .inl (by simp [hheader, hptn, hdev])⟩
    by_cases hlayout : (layout d (PitInfo.load buf)).2.2 = true
    swap
    · exact ⟨by simp [hheader, hptn, hdev, h₂, hlayout],
        .inr (by simp [hheader, hptn, hdev, h₁, h₂, hlayout])⟩
    simp only [hheader, hptn, hdev, h₁, h₂, h₃ hlayout, hlayout, not_true_eq_false, if_false]
    refine ⟨?_, .inr trivial⟩
    by_cases hready : env.opens = true ∧ env.alloc = true
    swap
    · rw [gptCreate, if_pos (by simpa using hready)]
    rw [gptCreate, if_neg (by simpa using hready)]
    cases hhdr : setGptHeader d (layout d (PitInfo.load buf)).2.1 with
    | none => rfl
    | some hdr =>
      cases hes : setPartitionTable d (u32 hdr.endLba) (layout d (PitInfo.load buf)).1
        (layout d (PitInfo.load buf)).1.count 0 (u32 hdr.startLba) [] with
      | none => simp only [hes]
      | some es =>
        exact absurd ⟨hheader, by simp [hptn], hdev, hlayout, hready, hdr, es, hhdr, hes⟩ h

/-- **When an update of the PIT is all or nothing:** an image that is too large, or one that passes
every other check. -/
theorem pitUpdate_all_or_nothing_iff :
    AllOrNothing d env buf size ↔ pitSizeLimit < size ∨ Passes d env (PitInfo.load buf) := by
  constructor
  · intro h
    by_contra hno
    obtain ⟨hsize, hpass⟩ := not_or.1 hno
    -- a table with more entries than either of the two that can be left
    let p : PitInfo := { PitInfo.load buf with
      count := (PitInfo.load buf).count + (layout d (PitInfo.load buf)).1.count + 1 }
    obtain ⟨hrej, hleft⟩ := pitUpdate_of_not_passes (Nat.le_of_not_lt hsize) hpass
      ⟨p, ⟨0, 0, 0⟩, 0, fun _ => 0, fun _ => 0⟩
    have hcount := congrArg (fun s : PitState => s.pit.count) (h _ hrej).1
    have hp : p.count =
        (PitInfo.load buf).count + (layout d (PitInfo.load buf)).1.count + 1 := rfl
    dsimp only at hcount
    rcases hleft with hleft | hleft
    · rw [hleft] at hcount
      omega
    · rw [hleft] at hcount
      omega
  · rintro (hsize | hpass) s hrej
    · simp [pitUpdate, hsize]
    · by_cases hsize : pitSizeLimit < size
      · simp [pitUpdate, hsize]
      · exact absurd hrej (pitUpdate_of_passes (Nat.le_of_not_lt hsize) hpass s)

/-- **Updates of partition tables are all or nothing** exactly where the image is turned away
before it is copied, or is not turned away. -/
theorem update_all_or_nothing_iff (disk : Gpt.Disk) (gptEnv : Gpt.Env) (d : Dev) (env : PitEnv)
    (buf : ℕ → UInt8) (size : ℕ) :
    (Gpt.AllOrNothing disk gptEnv buf ↔ (∃ i < 3, ¬Gpt.gptIsValid buf (20480 * i)) ∨
        Gpt.Passes disk buf ∧ (gptEnv.pmbr = true ∨ ∃ n < 3, (gptEnv.write n).isSome)) ∧
      (AllOrNothing d env buf size ↔ pitSizeLimit < size ∨ Passes d env (PitInfo.load buf)) :=
  ⟨Gpt.gptUpdate_all_or_nothing_iff disk gptEnv buf, pitUpdate_all_or_nothing_iff⟩

/-- **Zeros** are no PIT, but the table in memory afterwards. -/
theorem zeros_not_all_or_nothing :
    ¬((∀ disk gptEnv buf, Gpt.AllOrNothing disk gptEnv buf) ∧
      ∀ d env buf size, AllOrNothing d env buf size) := by
  rintro ⟨-, h⟩
  rcases pitUpdate_all_or_nothing_iff.1 (h smallMmc ⟨.quiet, true⟩ (fun _ => 0) 512)
    with hsize | hpass
  · exact absurd hsize (by decide)
  · exact absurd hpass.header (by decide)

end Pit
end LittleKernel
