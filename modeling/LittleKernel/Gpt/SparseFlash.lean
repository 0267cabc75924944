/-
# What a sparse image leaves on the device

`write_raw_chunk` and `write_compressed_ext4` of
`platform/exynos9630/fastboot/decompress_ext4.c` on a well-formed image, with the contents
of the device.  `imageByte` is what the image means: the payload of a raw chunk, the
repeated pattern of a fill chunk, and what was there before everywhere else.

A device call that does not transfer all its sectors leaves anything on them.  The result
of `write_raw_chunk` is not looked at, so the walk returns 0 whatever the device did, and
also on a board that does not boot from UFS, where it writes nothing.  The staging of a
fill chunk knows no bound but its 32-bit counter.

An image is `WellFormedImage` when each chunk is as long as its header and its payload and
the chunks add up to `total_blocks`.
-/

import LittleKernel.Gpt.SparseImage

namespace LittleKernel
namespace Gpt

open Memory Word

/-! ### Well-formed images -/

/-- The bytes a chunk has behind its header. -/
def Chunk.payload (c : Chunk) : ℕ :=
  match c.type with
  | .raw => c.sectors * 512
  | .fill => 4
  | .dontCare => 0
  | .invalid => 0

/-- The `k` chunks from `off` bytes into the image on, with where they are. -/
def imageChunks (mem : ℕ → UInt8) (img : ℕ) : ℕ → ℕ → List (ℕ × Chunk)
  | 0, _ => []
  | k + 1, off => (off, chunkAt mem img off) ::
      imageChunks mem img k (off + totalSizeAt mem img off)

/-- `chunk_size` of the chunk whose header is `off` bytes into the image. -/
def chunkSizeAt (mem : ℕ → UInt8) (img off : ℕ) : ℕ := load mem (img + off + 4) 4

/-- The chunks of the image at `img`. -/
def chunksOf (mem : ℕ → UInt8) (img : ℕ) : List (ℕ × Chunk) :=
  imageChunks mem img (totalChunks mem img) 28

/-- Each chunk is as long as its header and its payload, the chunk sizes add up to
`total_blocks`, and the lengths to `len`. -/
structure WellFormedImage (mem : ℕ → UInt8) (img len : ℕ) : Prop where
  type : ∀ x ∈ chunksOf mem img, x.2.type ≠ .invalid
  totalSize : ∀ x ∈ chunksOf mem img, totalSizeAt mem img x.1 = 12 + x.2.payload
  blocks : ((chunksOf mem img).map fun x => chunkSizeAt mem img x.1).sum = totalBlocks mem img
  length : 28 + ((chunksOf mem img).map fun x => totalSizeAt mem img x.1).sum = len

/-! ### What an image means -/

/-- Byte `i` of a repeated pattern. -/
def patternByte (pattern i : ℕ) : UInt8 := (Bytes.le 4 pattern).getD (i % 4) 0

/-- Byte `i` of a chunk at `off`, or nothing where the chunk has no contents. -/
def chunkByte (mem : ℕ → UInt8) (img off : ℕ) (c : Chunk) (i : ℕ) : Option UInt8 :=
  match c.type with
  | .raw => some (mem (img + off + 12 + i))
  | .fill => some (patternByte (load mem (img + off + 12) 4) i)
  | .dontCare => none
  | .invalid => none

/-- Byte `i` of the device with the chunks on it from sector `pos` on, where the device held
`disk`. -/
def imageByte (mem : ℕ → UInt8) (img : ℕ) (disk : ℕ → UInt8) : ℕ → List (ℕ × Chunk) → ℕ → UInt8
  | _, [], i => disk i
  | pos, x :: xs, i =>
    if pos * 512 ≤ i ∧ i < (pos + x.2.sectors) * 512 then
      (chunkByte mem img x.1 x.2 (i - pos * 512)).getD (disk i)
    else imageByte mem img disk (pos + x.2.sectors) xs i

/-! ### The device -/

/-- What a write leaves on the device; one that does not transfer all its sectors leaves
anything on them, whatever it returns. -/
def Platform.commit (p : Platform) (torn : Access → ℕ → UInt8) (mem disk : ℕ → UInt8)
    (a : Access) : ℕ → UInt8 :=
  copy disk (a.start * 512) (if p.moved a = a.count then mem else torn a)
    (if p.moved a = a.count then a.buf else 0) (a.count * 512)

/-- The device after one iteration. -/
def stepDisk (p : Platform) (torn : Access → ℕ → UInt8) (img : ℕ) (w : Walk)
    (disk : ℕ → UInt8) : ℕ → UInt8 :=
  let r := chunkStep p img w
  r.1.foldl (p.commit torn (r.2.elim w.mem Walk.mem)) disk

/-- The device after `k` iterations. -/
def diskLoop (p : Platform) (torn : Access → ℕ → UInt8) (img : ℕ) :
    ℕ → Walk → (ℕ → UInt8) → ℕ → UInt8
  | 0, _, disk => disk
  | k + 1, w, disk =>
    let disk' := stepDisk p torn img w disk
    (chunkStep p img w).2.elim disk' fun w' => diskLoop p torn img k w' disk'

/-- The device after `write_compressed_ext4`. -/
def flashed (p : Platform) (torn : Access → ℕ → UInt8) (mem : ℕ → UInt8) (img sectorBase : ℕ)
    (disk : ℕ → UInt8) : ℕ → UInt8 :=
  diskLoop p torn img (totalChunks mem img) ⟨mem, img + 28, sectorBase⟩ disk

/-- How many bytes the staging loop of a chunk writes: the counter of words is 32 bits wide
and starts over at `2 ^ 32`. -/
def Chunk.staged (c : Chunk) : List ℕ :=
  if c.type = .fill then [min (u32 c.sectors * 512) (2 ^ 34)] else []

/-- How many bytes the staging loops of `k` iterations write. -/
def stagedLoop (p : Platform) (img : ℕ) : ℕ → Walk → List ℕ
  | 0, _ => []
  | k + 1, w => (w.chunk img).staged ++ (chunkStep p img w).2.elim [] (stagedLoop p img k)

/-- **Flashing does what the image means**, with a staging buffer of `cap` bytes: fill chunks
are staged inside the buffer, and if the call returns 0 then every write has succeeded and
the device holds the image, whatever it held before. -/
structure FlashExact (p : Platform) (torn : Access → ℕ → UInt8) (mem : ℕ → UInt8)
    (img cap sectorBase : ℕ) : Prop where
  staged : ∀ n ∈ stagedLoop p img (totalChunks mem img) ⟨mem, img + 28, sectorBase⟩, n ≤ cap
  writes : (writeCompressedExt4 p mem img sectorBase).ret = some 0 →
    ∀ a ∈ (writeCompressedExt4 p mem img sectorBase).accesses, p.Completes a
  device : (writeCompressedExt4 p mem img sectorBase).ret = some 0 →
    ∀ disk i, flashed p torn mem img sectorBase disk i =
      imageByte mem img disk sectorBase (chunksOf mem img) i

/-! ### When it does -/

/-- Every fill chunk that the walk gets to fits the staging buffer, or as much of it as the
counter lets through. -/
def FillsFit (p : Platform) (cap : ℕ) : List (ℕ × Chunk) → Prop
  | [] => True
  | x :: xs => (∀ n ∈ x.2.staged, n ≤ cap) ∧ (x.2.Passed p → FillsFit p cap xs)

/-- The device call for a chunk at sector `pos`. -/
def chunkAccess (img pos : ℕ) (x : ℕ × Chunk) : Access :=
  ⟨.write, scsi0, if x.2.type = .fill then iBufForSparse else img + x.1 + 12, pos, x.2.sectors⟩

/-- The device does the write of each chunk in full; without a UFS boot device no chunk has
sectors to write. -/
def WritesDone (p : Platform) (img : ℕ) : ℕ → List (ℕ × Chunk) → Prop
  | _, [] => True
  | pos, x :: xs =>
    (x.2.Written →
      if p.bootDevice = .ufs then p.Completes (chunkAccess img pos x)
      else x.2.sectors = 0) ∧
    WritesDone p img (pos + x.2.sectors) xs

section Image

variable {p : Platform} {torn : Access → ℕ → UInt8} {mem : ℕ → UInt8} {img len off : ℕ} {w : Walk}

/-! ### One iteration -/

/-- **An iteration the walk gets through**: the device call of the chunk at a board that
writes, and the memory with a fill pattern staged. -/
theorem chunkStep_of_passed (h : At mem img len off w)
    (hlen : off + 12 + (chunkAt mem img off).payload ≤ len)
    (hsmall : (chunkAt mem img off).sectors < 2 ^ 32) (hpass : (chunkAt mem img off).Passed p) :
    ∃ m, chunkStep p img w =
        (if (chunkAt mem img off).Written ∧ p.Writes then
            [chunkAccess img w.sectorBase (off, chunkAt mem img off)] else [],
          some (w.next m (chunkAt mem img off).sectors)) ∧
      (∀ i < iBufForSparse, m i = w.mem i) ∧
      ((chunkAt mem img off).type = .fill → ∀ i < (chunkAt mem img off).sectors * 512,
        m (iBufForSparse + i) = patternByte (load mem (img + off + 12) 4) i) := by
  generalize hc : chunkAt mem img off = c at hlen hsmall hpass ⊢
  have hchunk : w.chunk img = c := hc ▸ h.chunk_eq (by omega)
  have hsec : u32 c.sectors = c.sectors := u32_of_lt hsmall
  -- the device call of a chunk that is written from `data`
  have hcall : c.Written → ∀ data, (writeRawChunk p data w.sectorBase c.sectors).accesses =
      (if p.Writes then [⟨.write, scsi0, data, w.sectorBase, c.sectors⟩] else []) ∧
      ∃ r, (writeRawChunk p data w.sectorBase c.sectors).ret = some r := by
    intro hw data
    rcases writeRawChunk_cases p data w.sectorBase c.sectors with
      ⟨hp, r, hr⟩ | ⟨hp, hr⟩ | ⟨hp, hp', -⟩
    · exact ⟨by rw [hr, if_pos hp], r, by rw [hr]⟩
    · exact ⟨by rw [hr, if_neg fun hw => hp hw.1], 0, by rw [hr]⟩
    · exact absurd (hpass.2 hw hp) (by simp [hp'])
  cases htype : c.type with
  | raw =>
    have hw : c.Written := .inl htype
    have hdata : p.Writes → (stageRaw p w.mem (w.imgBase + 12) c.sectors).2 = img + off + 12 := by
      intro hp
      rw [stageRaw, if_neg (by simp [hp.1]), h.imgBase_eq]
    obtain ⟨hacc, r, hr⟩ := hcall hw (stageRaw p w.mem (w.imgBase + 12) c.sectors).2
    refine ⟨(stageRaw p w.mem (w.imgBase + 12) c.sectors).1, ?_,
      fun i hi => stageRaw_frame p w.mem _ _ hi, fun hf => by simp at hf⟩
    simp only [chunkStep, hchunk, htype, hsec, hacc, hr, Option.map_some, hw, true_and]
    by_cases hp : p.Writes
    · simp [hp, hdata hp, chunkAccess, htype]
    · simp [hp]
  | fill =>
    have hw : c.Written := .inr htype
    have hpattern : load w.mem (w.imgBase + 12) 4 = load mem (img + off + 12) 4 := by
      simp only [Chunk.payload, htype] at hlen
      have hoff := h.off_ge
      rw [h.imgBase_eq, h.load_eq (by omega) (by omega)]
    have hends := hpass.1 htype
    have hstage : stageFill w.mem (load w.mem (w.imgBase + 12) 4) c.sectors = some
        (copy w.mem iBufForSparse (patternByte (load mem (img + off + 12) 4)) 0
          (c.sectors * 512)) := by
      rw [hpattern]
      exact if_neg (by omega)
    obtain ⟨hacc, r, hr⟩ := hcall hw iBufForSparse
    refine ⟨copy w.mem iBufForSparse (patternByte (load mem (img + off + 12) 4)) 0
      (c.sectors * 512), ?_, fun i hi => copy_of_not_mem (.inl hi), fun _ i hi => ?_⟩
    · simp only [chunkStep, hchunk, htype, hsec, hstage, hacc, hr, Option.map_some, hw, true_and]
      by_cases hp : p.Writes <;> simp [hp, chunkAccess, htype]
    · rw [copy_of_mem (by omega) (by omega), Nat.zero_add, Nat.add_sub_cancel_left]
  | dontCare =>
    refine ⟨w.mem, ?_, fun _ _ => rfl, fun hf => by simp at hf⟩
    simp [chunkStep, hchunk, htype, hsec, Chunk.Written]
  | invalid =>
    refine ⟨w.mem, ?_, fun _ _ => rfl, fun hf => by simp at hf⟩
    simp [chunkStep, hchunk, htype, hsec, Chunk.Written]

/-- What a write of the chunk leaves on the device. -/
theorem commit_chunk {x : ℕ × Chunk} {pos : ℕ} (hw : x.2.Written)
    (hdone : p.Completes (chunkAccess img pos x)) {m disk : ℕ → UInt8}
    (hraw : x.2.type = .raw → ∀ i < x.2.sectors * 512, m (img + x.1 + 12 + i) = mem (img + x.1 + 12 + i))
    (hfill : x.2.type = .fill → ∀ i < x.2.sectors * 512,
      m (iBufForSparse + i) = patternByte (load mem (img + x.1 + 12) 4) i) (i : ℕ) :
    p.commit torn m disk (chunkAccess img pos x) i =
      if pos * 512 ≤ i ∧ i < (pos + x.2.sectors) * 512 then
        (chunkByte mem img x.1 x.2 (i - pos * 512)).getD (disk i)
      else disk i := by
  have hcount : (chunkAccess img pos x).count = x.2.sectors := rfl
  have hstart : (chunkAccess img pos x).start = pos := rfl
  rw [Platform.commit, if_pos hdone.2, if_pos hdone.2, hcount, hstart]
  by_cases hin : pos * 512 ≤ i ∧ i < (pos + x.2.sectors) * 512
  · rw [if_pos hin, copy_of_mem hin.1 (by omega)]
    obtain htype | htype := hw
    · have := hraw htype (i - pos * 512) (by omega)
      simpa [chunkAccess, chunkByte, htype] using this
    · have := hfill htype (i - pos * 512) (by omega)
      simpa [chunkAccess, chunkByte, htype] using this
  · rw [if_neg hin, copy_of_not_mem (by omega)]

/-- The walk stands `k` chunks before the end of a well-formed image, with their sectors in
32 bits. -/
structure Stands (mem : ℕ → UInt8) (img len k off : ℕ) (w : Walk) : Prop
    extends At mem img len off w where
  type : ∀ x ∈ imageChunks mem img k off, x.2.type ≠ .invalid
  totalSize : ∀ x ∈ imageChunks mem img k off, totalSizeAt mem img x.1 = 12 + x.2.payload
  length : off + ((imageChunks mem img k off).map fun x => totalSizeAt mem img x.1).sum ≤ len
  sectors : w.sectorBase + ((imageChunks mem img k off).map fun x => x.2.sectors).sum < 2 ^ 32

/-- The condition of `WritesDone` on one chunk. -/
def WriteDone (p : Platform) (img pos : ℕ) (x : ℕ × Chunk) : Prop :=
  x.2.Written →
    if p.bootDevice = .ufs then p.Completes (chunkAccess img pos x) else x.2.sectors = 0

theorem not_written_of_type {c : Chunk} (hw : ¬c.Written) (hinv : c.type ≠ .invalid) :
    c.type = .dontCare := by
  cases htype : c.type with
  | raw => exact absurd (.inl htype) hw
  | fill => exact absurd (.inr htype) hw
  | dontCare => rfl
  | invalid => exact absurd htype hinv

/-- **One iteration** on a well-formed image: the device call, and what it leaves on a
device that does it. -/
theorem Stands.step {k : ℕ} (h : Stands mem img len (k + 1) off w) (torn : Access → ℕ → UInt8)
    (hbuf : img + len ≤ iBufForSparse) (hpass : (chunkAt mem img off).Passed p) :
    ∃ w', chunkStep p img w =
        (if (chunkAt mem img off).Written ∧ p.Writes then
          [chunkAccess img w.sectorBase (off, chunkAt mem img off)] else [], some w') ∧
      Stands mem img len k (off + totalSizeAt mem img off) w' ∧
      w'.sectorBase = w.sectorBase + (chunkAt mem img off).sectors ∧
      (WriteDone p img w.sectorBase (off, chunkAt mem img off) → ∀ disk i,
        stepDisk p torn img w disk i =
          if w.sectorBase * 512 ≤ i ∧ i < (w.sectorBase + (chunkAt mem img off).sectors) * 512 then
            (chunkByte mem img off (chunkAt mem img off) (i - w.sectorBase * 512)).getD (disk i)
          else disk i) := by
  have hmem : (off, chunkAt mem img off) ∈ imageChunks mem img (k + 1) off := List.mem_cons_self
  have htotal := h.totalSize _ hmem
  have hinv := h.type _ hmem
  have hlength := h.length
  have hsectors := h.sectors
  simp only [imageChunks, List.map_cons, List.sum_cons] at hlength hsectors htotal
  dsimp only at hinv
  obtain ⟨m, hstep, hm, hfill⟩ := chunkStep_of_passed h.toAt (by omega) (by omega) hpass
  obtain ⟨hat, hbase⟩ := h.toAt.next hbuf (by omega) hm (chunkAt mem img off).sectors
  have hbase : (w.next m (chunkAt mem img off).sectors).sectorBase =
      w.sectorBase + (chunkAt mem img off).sectors := by
    rw [hbase, u32_of_lt (by omega)]
  refine ⟨_, hstep, { hat with
    type := fun x hx => h.type x (List.mem_cons_of_mem _ hx)
    totalSize := fun x hx => h.totalSize x (List.mem_cons_of_mem _ hx)
    length := by omega
    sectors := by rw [hbase]; omega }, hbase, fun hdone disk i => ?_⟩
  rw [stepDisk, hstep]
  simp only [Option.elim_some]
  by_cases hw : (chunkAt mem img off).Written
  · have hone := hdone hw
    by_cases hufs : p.bootDevice = .ufs
    · rw [if_pos hufs] at hone
      have hp : p.Writes := ⟨hufs, hpass.2 hw hufs⟩
      rw [if_pos ⟨hw, hp⟩, List.foldl_cons, List.foldl_nil]
      refine commit_chunk hw hone (fun htype j hj => ?_) hfill i
      have hoff := h.off_ge
      have hpay : (chunkAt mem img off).payload = (chunkAt mem img off).sectors * 512 := by
        rw [Chunk.payload, show (chunkAt mem img off).type = .raw from htype]
      change m (img + off + 12 + j) = mem (img + off + 12 + j)
      dsimp only at hj
      rw [hm _ (by omega), h.image _ (by omega) (by omega)]
    · rw [if_neg hufs] at hone
      have hp : ¬p.Writes := fun hp => hufs hp.1
      dsimp only at hone
      rw [if_neg (fun hc => hp hc.2), List.foldl_nil, if_neg (by omega)]
  · rw [if_neg (fun hc => hw hc.1), List.foldl_nil, chunkByte, not_written_of_type hw hinv]
    simp

theorem Stands.stop {k : ℕ} (h : Stands mem img len (k + 1) off w)
    (hbuf : img + len ≤ iBufForSparse) (hpass : ¬(chunkAt mem img off).Passed p) :
    (chunkStep p img w).2 = none := by
  have hlength := h.length
  have htotal := h.totalSize _ List.mem_cons_self
  simp only [imageChunks, List.map_cons, List.sum_cons] at hlength htotal
  exact (chunkStep_spec h.toAt hbuf (by omega)).2.1 hpass

/-! ### The walk -/

theorem imageByte_of_lt {disk : ℕ → UInt8} (xs : List (ℕ × Chunk)) {pos i : ℕ}
    (hi : i < pos * 512) : imageByte mem img disk pos xs i = disk i := by
  induction xs generalizing pos with
  | nil => rfl
  | cons x xs ih =>
    rw [imageByte, if_neg (by omega)]
    exact ih (lt_of_lt_of_le hi (Nat.mul_le_mul_right _ (Nat.le_add_right _ _)))

theorem imageByte_congr {disk disk' : ℕ → UInt8} (xs : List (ℕ × Chunk)) {pos i : ℕ}
    (hi : disk i = disk' i) :
    imageByte mem img disk pos xs i = imageByte mem img disk' pos xs i := by
  induction xs generalizing pos with
  | nil => exact hi
  | cons x xs ih => rw [imageByte, imageByte, hi, ih]

/-- The first chunk on the device, and then the others. -/
theorem imageByte_cons {disk disk' : ℕ → UInt8} {x : ℕ × Chunk} {xs : List (ℕ × Chunk)}
    {pos : ℕ} (h : ∀ i, disk' i =
      if pos * 512 ≤ i ∧ i < (pos + x.2.sectors) * 512 then
        (chunkByte mem img x.1 x.2 (i - pos * 512)).getD (disk i)
      else disk i) (i : ℕ) :
    imageByte mem img disk' (pos + x.2.sectors) xs i = imageByte mem img disk pos (x :: xs) i := by
  rw [imageByte]
  by_cases hin : pos * 512 ≤ i ∧ i < (pos + x.2.sectors) * 512
  · rw [if_pos hin, imageByte_of_lt xs hin.2, h, if_pos hin]
  · rw [if_neg hin]
    exact imageByte_congr xs (by rw [h, if_neg hin])

section

variable (hbuf : img + len ≤ iBufForSparse)
include hbuf

theorem ret_chunkLoop_iff (k : ℕ) (h : Stands mem img len k off w) :
    (chunkLoop p img k w).ret = some 0 ↔ ∀ x ∈ imageChunks mem img k off, x.2.Passed p := by
  induction k generalizing off w with
  | zero => simp [chunkLoop, imageChunks]
  | succ k ih =>
    rw [imageChunks, List.forall_mem_cons, chunkLoop]
    by_cases hpass : (chunkAt mem img off).Passed p
    · obtain ⟨w', hstep, hw', -⟩ := h.step (fun _ _ => 0) hbuf hpass
      rw [hstep]
      simp only [hpass, true_and]
      exact ih hw'
    · have hstop := h.stop hbuf hpass
      rcases hstep : chunkStep p img w with ⟨as, r⟩
      rw [hstep] at hstop
      obtain rfl := hstop
      simp [hpass]

/-- **What is staged** of the fill chunks of the walk. -/
theorem stagedLoop_iff {cap : ℕ} (k : ℕ) (h : Stands mem img len k off w) :
    (∀ n ∈ stagedLoop p img k w, n ≤ cap) ↔ FillsFit p cap (imageChunks mem img k off) := by
  induction k generalizing off w with
  | zero => simp [stagedLoop, imageChunks, FillsFit]
  | succ k ih =>
    have hlength := h.length
    have htotal := h.totalSize _ List.mem_cons_self
    simp only [imageChunks, List.map_cons, List.sum_cons] at hlength htotal
    rw [stagedLoop, imageChunks, FillsFit, List.forall_mem_append, h.chunk_eq (by omega)]
    refine and_congr_right fun _ => ?_
    by_cases hpass : (chunkAt mem img off).Passed p
    · obtain ⟨w', hstep, hw', -⟩ := h.step (fun _ _ => 0) hbuf hpass
      rw [hstep, Option.elim_some, ih hw']
      exact ⟨fun hf _ => hf, fun hf => hf hpass⟩
    · rw [h.stop hbuf hpass]
      simp [hpass]

/-- **The walk with a device that does every write** puts the image on the device. -/
theorem diskLoop_of_writesDone (k : ℕ)
    (h : Stands mem img len k off w) (hpass : ∀ x ∈ imageChunks mem img k off, x.2.Passed p)
    (hdone : WritesDone p img w.sectorBase (imageChunks mem img k off)) :
    (∀ a ∈ (chunkLoop p img k w).accesses, p.Completes a) ∧
      ∀ disk i, diskLoop p torn img k w disk i =
        imageByte mem img disk w.sectorBase (imageChunks mem img k off) i := by
  induction k generalizing off w with
  | zero => exact ⟨by simp [chunkLoop], fun _ _ => rfl⟩
  | succ k ih =>
    obtain ⟨hone, hrest⟩ := hdone
    have hpass := List.forall_mem_cons.1 hpass
    obtain ⟨w', hstep, hw', hbase, hdisk⟩ := h.step torn hbuf hpass.1
    rw [← hbase] at hrest
    obtain ⟨hacc, himage⟩ := ih hw' hpass.2 hrest
    constructor
    · rw [accesses_chunkLoop_succ, hstep]
      refine List.forall_mem_append.2 ⟨fun a ha => ?_, hacc⟩
      by_cases hw : (chunkAt mem img off).Written ∧ p.Writes
      · rw [if_pos hw] at ha
        obtain rfl := List.mem_singleton.1 ha
        have := hone hw.1
        rwa [if_pos hw.2.1] at this
      · rw [if_neg hw] at ha
        exact absurd ha List.not_mem_nil
    · intro disk i
      rw [diskLoop, hstep]
      simp only [Option.elim_some]
      rw [himage, hbase, imageChunks]
      exact @imageByte_cons mem img disk (stepDisk p torn img w disk)
        (off, chunkAt mem img off) _ w.sectorBase (hdisk hone disk) i

/-- On a board that boots from UFS every chunk that is written has its device call. -/
theorem writesDone_of_accesses (hufs : p.bootDevice = .ufs)
    (k : ℕ) (h : Stands mem img len k off w) (hpass : ∀ x ∈ imageChunks mem img k off, x.2.Passed p)
    (hacc : ∀ a ∈ (chunkLoop p img k w).accesses, p.Completes a) :
    WritesDone p img w.sectorBase (imageChunks mem img k off) := by
  induction k generalizing off w with
  | zero => trivial
  | succ k ih =>
    have hpass := List.forall_mem_cons.1 hpass
    obtain ⟨w', hstep, hw', hbase, -⟩ := h.step (fun _ _ => 0) hbuf hpass.1
    rw [accesses_chunkLoop_succ, hstep] at hacc
    obtain ⟨hone, hrest⟩ := List.forall_mem_append.1 hacc
    refine ⟨fun hw => ?_, ?_⟩
    · rw [if_pos hufs]
      have hp : p.Writes := ⟨hufs, hpass.1.2 hw hufs⟩
      exact hone _ (by rw [if_pos ⟨hw, hp⟩]; exact List.mem_singleton_self _)
    · rw [← hbase]
      exact ih hw' hpass.2 hrest

end

/-- Without a UFS boot device nothing is written. -/
theorem diskLoop_of_not_ufs (hufs : p.bootDevice ≠ .ufs) (k : ℕ) (w : Walk) (disk : ℕ → UInt8) :
    diskLoop p torn img k w disk = disk := by
  induction k generalizing w with
  | zero => rfl
  | succ k ih =>
    have hp : ¬p.Writes := fun hp => hufs hp.1
    rw [diskLoop, stepDisk, chunkStep_of_not_writes hp]
    cases (chunkStep p img w).2 with
    | none => rfl
    | some w' => exact ih w'

/-- Chunks that change no device have nothing to write. -/
theorem writesDone_of_unchanged (hufs : p.bootDevice ≠ .ufs) (xs : List (ℕ × Chunk)) (pos : ℕ)
    (h : ∀ disk i, disk i = imageByte mem img disk pos xs i) : WritesDone p img pos xs := by
  induction xs generalizing pos with
  | nil => trivial
  | cons x xs ih =>
    refine ⟨fun hw => ?_, ih _ fun disk i => ?_⟩
    · rw [if_neg hufs]
      by_contra hne
      -- a device that does not hold the first byte of the chunk
      have hbyte : ∃ v, chunkByte mem img x.1 x.2 0 = some v := by
        obtain htype | htype := hw <;> exact ⟨_, by rw [chunkByte, htype]⟩
      obtain ⟨v, hv⟩ := hbyte
      have := h (fun _ => v + 1) (pos * 512)
      rw [imageByte, if_pos (by omega), Nat.sub_self, hv, Option.getD_some] at this
      simp at this
    · rcases Nat.lt_or_ge i ((pos + x.2.sectors) * 512) with hlt | hge
      · rw [imageByte_of_lt xs hlt]
      · have := h disk i
        rwa [imageByte, if_neg (by omega)] at this

theorem checkCompressExt4_eq_zero {partiSize : ℕ} (h : checkCompressExt4 mem img partiSize = some 0) :
    blockSize mem img = 4096 ∧ totalBlocks mem img ≤ partiSize / 4096 := by
  unfold checkCompressExt4 at h
  split_ifs at h with h₁ h₂ h₃ h₄ h₅ h₆ <;> simp at h
  have h₅ := not_not.1 h₅
  rw [h₅] at h₆
  exact ⟨h₅, by omega⟩

theorem sum_sectors (hblock : blockSize mem img = 4096) (k off : ℕ) :
    ((imageChunks mem img k off).map fun x => x.2.sectors).sum =
      8 * ((imageChunks mem img k off).map fun x => chunkSizeAt mem img x.1).sum := by
  induction k generalizing off with
  | zero => rfl
  | succ k ih =>
    have hone : (chunkAt mem img off).sectors = 8 * chunkSizeAt mem img off := by
      simp only [chunkAt, Walk.chunk, chunkSizeAt, hblock]
      omega
    simp only [imageChunks, List.map_cons, List.sum_cons, ih, hone]
    omega

theorem WellFormedImage.stands (hwf : WellFormedImage mem img len) {partiSize sectorBase : ℕ}
    (hcheck : checkCompressExt4 mem img partiSize = some 0)
    (hdev : sectorBase + partiSize / 512 < 2 ^ 32) :
    Stands mem img len (totalChunks mem img) 28 ⟨mem, img + 28, sectorBase⟩ where
  imgBase_eq := rfl
  off_ge := le_rfl
  image _ _ _ := rfl
  type := hwf.type
  totalSize := hwf.totalSize
  length := hwf.length.le
  sectors := by
    obtain ⟨hblock, htotal⟩ := checkCompressExt4_eq_zero hcheck
    have hblocks := hwf.blocks
    rw [chunksOf] at hblocks
    rw [sum_sectors hblock, hblocks]
    dsimp only
    omega

/-- **When flashing a sparse image does what the image means.**  A well-formed image in the
transfer buffer, for a partition that lies on the device, is staged inside the staging
buffer and put on the device as it stands, unless the call does not return 0, if and only
if every fill chunk that the walk gets to fits the staging buffer and, when the walk gets
through all of them, the device transfers every write in full and says so, or the image has nothing to write
for a board that does not boot from UFS. -/
theorem sparse_flash_exact_iff (p : Platform) (torn : Access → ℕ → UInt8) (mem : ℕ → UInt8)
    (img len cap partiSize sectorBase : ℕ)
    (hcheck : checkCompressExt4 mem img partiSize = some 0) (hwf : WellFormedImage mem img len)
    (hbuf : img + len ≤ iBufForSparse) (hdev : sectorBase + partiSize / 512 < 2 ^ 32) :
    FlashExact p torn mem img cap sectorBase ↔ FillsFit p cap (chunksOf mem img) ∧
        ((∀ x ∈ chunksOf mem img, x.2.Passed p) →
          WritesDone p img sectorBase (chunksOf mem img)) := by
  have hstands := hwf.stands hcheck hdev
  have hret : (writeCompressedExt4 p mem img sectorBase).ret = some 0 ↔
      ∀ x ∈ chunksOf mem img, x.2.Passed p := ret_chunkLoop_iff hbuf _ hstands
  have hstaged : _ ↔ FillsFit p cap (chunksOf mem img) := stagedLoop_iff hbuf _ hstands
  constructor
  · intro hex
    refine ⟨hstaged.1 hex.staged, fun hpass => ?_⟩
    by_cases hufs : p.bootDevice = .ufs
    · exact writesDone_of_accesses hbuf hufs _ hstands hpass (hex.writes (hret.2 hpass))
    · have himage : ∀ disk i, disk i =
          imageByte mem img disk sectorBase (chunksOf mem img) i := fun disk i => by
        rw [← hex.device (hret.2 hpass) disk i, flashed, diskLoop_of_not_ufs hufs]
      exact writesDone_of_unchanged hufs _ _ himage
  · rintro ⟨hfit, hdone⟩
    have himage := fun hr => @diskLoop_of_writesDone p torn mem img len 28 _ hbuf _ hstands
      (hret.1 hr) (hdone (hret.1 hr))
    exact ⟨hstaged.2 hfit, fun hr => (himage hr).1, fun hr => (himage hr).2⟩

end Image

theorem wellFormedImage_fill : WellFormedImage (fillImage 1 1) 0x8B000000 44 := by
  have hchunks : chunksOf (fillImage 1 1) 0x8B000000 = [(28, ⟨.fill, 8⟩)] := by decide +kernel
  have htotal : totalSizeAt (fillImage 1 1) 0x8B000000 28 = 16 := by decide +kernel
  have hsize : chunkSizeAt (fillImage 1 1) 0x8B000000 28 = 1 := by decide +kernel
  have hblocks : totalBlocks (fillImage 1 1) 0x8B000000 = 1 := by decide +kernel
  constructor <;> simp [hchunks, htotal, hsize, hblocks, Chunk.payload]

/-- One fill chunk of one block, with a staging buffer of one megabyte and a device that does
its writes. -/
theorem sparse_flash_exact_fill :
    FlashExact ufsBoard (fun _ _ => 0) (fillImage 1 1) 0x8B000000 0x100000 1024 := by
  have hchunks : chunksOf (fillImage 1 1) 0x8B000000 = [(28, ⟨.fill, 8⟩)] := by decide +kernel
  refine (sparse_flash_exact_iff ufsBoard (fun _ _ => 0) (fillImage 1 1) 0x8B000000 44 0x100000 4096 1024
    (by decide +kernel) wellFormedImage_fill (by decide) (by decide)).2 ?_
  rw [hchunks]
  exact ⟨⟨by decide, fun _ => trivial⟩, fun _ => ⟨fun _ => ⟨rfl, rfl⟩, trivial⟩⟩

/-- The same board with a device that does no write. -/
def brokenBoard : Platform := ⟨.ufs, fun _ => true, fun _ => 0, fun _ => 0⟩

/-- **A failed write goes unnoticed**: the call returns 0, and the one write it made was not
done. -/
theorem sparse_flash_ignores_failure :
    checkCompressExt4 (fillImage 1 1) 0x8B000000 4096 = some 0 ∧
      WellFormedImage (fillImage 1 1) 0x8B000000 44 ∧
      ¬FlashExact brokenBoard (fun _ _ => 0) (fillImage 1 1) 0x8B000000 0x100000 1024 := by
  refine ⟨by decide +kernel, wellFormedImage_fill, fun h => ?_⟩
  have hrun : writeCompressedExt4 brokenBoard (fillImage 1 1) 0x8B000000 1024 =
      ⟨[⟨.write, scsi0, iBufForSparse, 1024, 8⟩], some 0⟩ := by decide +kernel
  have := h.writes (by rw [hrun]) _ (by rw [hrun]; exact List.mem_singleton_self _)
  cases this.1

end Gpt
end LittleKernel
