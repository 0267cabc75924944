/-
# What a sparse image reaches

`write_compressed_ext4` of `platform/exynos9630/fastboot/decompress_ext4.c` on an image of
`len` bytes at `img`.  What `check_compress_ext4` checks before is the file header; the chunk
headers are taken as they come.

`readsLoop` lists the ranges that the walk reads as chunk headers, raw data and patterns,
next to the device calls of `chunkLoop`.  `ChunksInside` is the condition on the chunk
headers under which everything stays inside the image and the partition; it is exact
(`sparse_image_confined_iff`).  The transfer buffer ends below `CFG_FASTBOOT_MMC_BUFFER`
(`include/platform/fastboot.h`), so staging a chunk does not change the image.
-/

import LittleKernel.Gpt.DecompressExt4

namespace LittleKernel
namespace Gpt

open Memory Word

section Reads

/-- A raw chunk whose data is at `data` is copied to the staging buffer. -/
def Platform.Copies (p : Platform) (data : ℕ) : Prop := p.bootDevice ≠ .ufs ∧ data % 8 ≠ 0

instance (p : Platform) (data : ℕ) : Decidable (p.Copies data) := inferInstanceAs (Decidable (_ ∧ _))

/-- The ranges of memory, as addresses and lengths, that one iteration reads of the image:
the chunk header, raw data that is copied or handed to the device, a fill pattern. -/
def chunkReads (p : Platform) (img : ℕ) (w : Walk) : List (ℕ × ℕ) :=
  (w.imgBase, 12) ::
    match (w.chunk img).type with
    | .raw =>
      if p.Writes ∨ p.Copies (w.imgBase + 12) then
        [(w.imgBase + 12, u32 (w.chunk img).sectors * 512)]
      else []
    | .fill => [(w.imgBase + 12, 4)]
    | .dontCare => []
    | .invalid => []

/-- What `k` iterations read of the image. -/
def readsLoop (p : Platform) (img : ℕ) : ℕ → Walk → List (ℕ × ℕ)
  | 0, _ => []
  | k + 1, w => chunkReads p img w ++ ((chunkStep p img w).2.elim [] (readsLoop p img k))

/-- What `write_compressed_ext4` reads of the image behind its file header. -/
def sparseReads (p : Platform) (mem : ℕ → UInt8) (img sectorBase : ℕ) : List (ℕ × ℕ) :=
  readsLoop p img (totalChunks mem img) ⟨mem, img + 28, sectorBase⟩

/-- **Flashing the image at `img` is confined**: to the partition of `partiSize` bytes from
`sectorBase` on, and to the `len` bytes of the image. -/
def SparseConfined (p : Platform) (mem : ℕ → UInt8) (img len partiSize sectorBase : ℕ) : Prop :=
  (∀ a ∈ (writeCompressedExt4 p mem img sectorBase).accesses, ∀ s, a.Touches s →
    sectorBase ≤ s ∧ s < sectorBase + partiSize / 512) ∧
  ∀ r ∈ sparseReads p mem img sectorBase, img ≤ r.1 ∧ r.1 + r.2 ≤ img + len

end Reads

section Condition

/-- The chunk whose header is `off` bytes into the image. -/
def chunkAt (mem : ℕ → UInt8) (img off : ℕ) : Chunk := Walk.chunk img ⟨mem, img + off, 0⟩

/-- Its `total_size`. -/
def totalSizeAt (mem : ℕ → UInt8) (img off : ℕ) : ℕ := load mem (img + off + 8) 4

/-- The staging loop of a fill chunk of `n` sectors comes to an end. -/
def Chunk.Ends (c : Chunk) : Prop := c.type = .fill → u32 c.sectors * 128 < 2 ^ 32

instance (c : Chunk) : Decidable c.Ends := inferInstanceAs (Decidable (_ → _))

/-- The walk gets behind the chunk: its staging ends, and a chunk that is written finds the
device if it looks for it. -/
def Chunk.Passed (p : Platform) (c : Chunk) : Prop :=
  c.Ends ∧ (c.Written → p.bootDevice = .ufs → p.opens scsi0 = true)

instance (p : Platform) (c : Chunk) : Decidable (c.Passed p) := inferInstanceAs (Decidable (_ ∧ _))

/-- The header of the chunk and what it has in the image lie in the `len` bytes of the
image at `img`, and what is written of it, from sector `pos` on, lies between `lo` and
`hi`. -/
structure Chunk.Inside (p : Platform) (img len lo hi off pos : ℕ) (c : Chunk) : Prop where
  header : off + 12 ≤ len
  raw : c.type = .raw → p.Writes ∨ p.Copies (img + off + 12) →
    off + 12 + u32 c.sectors * 512 ≤ len
  fill : c.type = .fill → off + 16 ≤ len
  sectors : c.Written → c.Ends → p.Writes → 0 < u32 c.sectors →
    lo ≤ pos ∧ pos + u32 c.sectors ≤ hi

/-- **The condition on the chunk headers**, for `k` chunks from `off` on, `pos` being the
sector that the sizes of the chunks before add up to. -/
def ChunksInside (p : Platform) (mem : ℕ → UInt8) (img len lo hi : ℕ) : ℕ → ℕ → ℕ → Prop
  | 0, _, _ => True
  | k + 1, off, pos =>
    (chunkAt mem img off).Inside p img len lo hi off pos ∧
    ((chunkAt mem img off).Passed p →
      ChunksInside p mem img len lo hi k (off + totalSizeAt mem img off)
        (u32 (pos + u32 (chunkAt mem img off).sectors)))

end Condition

section Walk

variable {p : Platform} {mem : ℕ → UInt8} {img len lo hi off : ℕ} {w : Walk}

/-- The walk is at `off`, and the image is as it was. -/
structure At (mem : ℕ → UInt8) (img len off : ℕ) (w : Walk) : Prop where
  imgBase_eq : w.imgBase = img + off
  off_ge : 28 ≤ off
  image : ∀ i, img ≤ i → i < img + len → w.mem i = mem i

theorem load_congr {m m' : ℕ → UInt8} {a n : ℕ} (h : ∀ i, a ≤ i → i < a + n → m' i = m i) :
    load m' a n = load m a n := by
  rw [load, load, window_congr fun i hi => h (a + i) (by omega) (by omega)]

/-- What the walk sees of the image. -/
theorem At.load_eq (h : At mem img len off w) {a n : ℕ} (ha : img ≤ a) (hn : a + n ≤ img + len) :
    load w.mem a n = load mem a n :=
  load_congr fun i hi hi' => h.image i (by omega) (by omega)

theorem At.chunk_eq (h : At mem img len off w) (hlen : off + 12 ≤ len) :
    w.chunk img = chunkAt mem img off := by
  have hoff := h.off_ge
  simp only [Walk.chunk, chunkAt, blockSize, h.imgBase_eq]
  rw [h.load_eq (by omega) (by omega), h.load_eq (by omega) (by omega),
    h.load_eq (by omega) (by omega)]

/-- The staging buffer lies behind the image. -/
theorem At.next (h : At mem img len off w) (hbuf : img + len ≤ iBufForSparse) (hlen : off + 12 ≤ len)
    {m : ℕ → UInt8} (hm : ∀ i < iBufForSparse, m i = w.mem i) (n : ℕ) :
    At mem img len (off + totalSizeAt mem img off) (w.next m n) ∧
      (w.next m n).sectorBase = u32 (w.sectorBase + n) := by
  have himage : ∀ i, img ≤ i → i < img + len → m i = mem i := fun i hi hi' => by
    rw [hm i (by omega), h.image i hi hi']
  have htotal : load m (w.imgBase + 8) 4 = totalSizeAt mem img off := by
    rw [h.imgBase_eq]
    exact load_congr fun i hi hi' => himage i (by omega) (by omega)
  have hoff := h.off_ge
  refine ⟨⟨?_, by omega, himage⟩, rfl⟩
  change w.imgBase + load m (w.imgBase + 8) 4 = _
  rw [htotal, h.imgBase_eq]
  omega

theorem stageRaw_frame (p : Platform) (m : ℕ → UInt8) (data n : ℕ) {i : ℕ} (hi : i < iBufForSparse) :
    (stageRaw p m data n).1 i = m i := by
  unfold stageRaw
  split_ifs
  · exact copy_of_not_mem (.inl hi)
  · rfl

/-- What `write_raw_chunk` comes to on each board. -/
theorem writeRawChunk_cases (p : Platform) (data sector n : ℕ) :
    (p.Writes ∧ ∃ r, writeRawChunk p data sector n = ⟨[⟨.write, scsi0, data, sector, n⟩], some r⟩) ∨
    (p.bootDevice ≠ .ufs ∧ writeRawChunk p data sector n = ⟨[], some 0⟩) ∨
    (p.bootDevice = .ufs ∧ p.opens scsi0 = false ∧ writeRawChunk p data sector n = ⟨[], none⟩) := by
  by_cases hufs : p.bootDevice = .ufs
  · cases hopen : p.opens scsi0 with
    | true => exact .inl ⟨⟨hufs, hopen⟩, writeRawChunk_of_writes ⟨hufs, hopen⟩ data sector n⟩
    | false => exact .inr (.inr ⟨hufs, rfl, by simp [writeRawChunk, hufs, hopen]⟩)
  · exact .inr (.inl ⟨hufs, by simp [writeRawChunk, hufs]⟩)

/-- One iteration on a chunk that is written from `data`, with the memory `m` behind its
staging. -/
theorem written_step (c : Chunk) (hc : c.Written) (hends : c.Ends) (data n : ℕ) (w' : Walk) :
    let o := writeRawChunk p data w.sectorBase n
    o.accesses.map (fun a => (a.start, a.count)) =
      (if p.Writes then [(w.sectorBase, n)] else []) ∧
    o.ret.map (fun _ => w') = if c.Passed p then some w' else none := by
  rcases writeRawChunk_cases p data w.sectorBase n with ⟨hp, r, h⟩ | ⟨hp, h⟩ | ⟨hp, hp', h⟩
  · have hpass : c.Passed p := ⟨hends, fun _ _ => hp.2⟩
    simp [h, hp, hpass]
  · have hpass : c.Passed p := ⟨hends, fun _ hufs => absurd hufs hp⟩
    have hnot : ¬p.Writes := fun hw => hp hw.1
    simp [h, hnot, hpass]
  · have hpass : ¬c.Passed p := fun hpass => by simp [hpass.2 hc hp] at hp'
    have hnot : ¬p.Writes := fun hw => by simp [hw.2] at hp'
    simp [h, hnot, hpass]

/-- **One iteration** inside the image: what it writes, and where it goes on. -/
theorem chunkStep_spec (h : At mem img len off w) (hbuf : img + len ≤ iBufForSparse)
    (hlen : off + 12 ≤ len) :
    let c := chunkAt mem img off
    (chunkStep p img w).1.map (fun a => (a.start, a.count)) =
      (if c.Written ∧ c.Ends ∧ p.Writes then [(w.sectorBase, u32 c.sectors)] else []) ∧
    (¬c.Passed p → (chunkStep p img w).2 = none) ∧
    (c.Passed p → ∃ w', (chunkStep p img w).2 = some w' ∧
      At mem img len (off + totalSizeAt mem img off) w' ∧
      w'.sectorBase = u32 (w.sectorBase + u32 c.sectors)) := by
  intro c
  have hchunk : w.chunk img = c := h.chunk_eq hlen
  have hnext := fun {m : ℕ → UInt8} (hm : ∀ i < iBufForSparse, m i = w.mem i) =>
    h.next hbuf hlen hm (u32 c.sectors)
  cases htype : c.type with
  | raw =>
    have hw : c.Written := .inl htype
    have hends : c.Ends := fun hf => by simp [htype] at hf
    obtain ⟨hacc, hret⟩ := written_step (p := p) (w := w) c hw hends
      (stageRaw p w.mem (w.imgBase + 12) (u32 c.sectors)).2 (u32 c.sectors)
      (w.next (stageRaw p w.mem (w.imgBase + 12) (u32 c.sectors)).1 (u32 c.sectors))
    simp only [chunkStep, hchunk, htype, hacc, hret]
    refine ⟨by simp [hw, hends], fun hpass => if_neg hpass, fun hpass => ?_⟩
    obtain ⟨hat, hbase⟩ := hnext fun i hi => stageRaw_frame p w.mem _ (u32 c.sectors) hi
    exact ⟨_, if_pos hpass, hat, hbase⟩
  | fill =>
    have hw : c.Written := .inr htype
    by_cases hends : c.Ends
    · have hstage : stageFill w.mem (load w.mem (w.imgBase + 12) 4) (u32 c.sectors) = some
          (copy w.mem iBufForSparse
            (fun i => (Bytes.le 4 (load w.mem (w.imgBase + 12) 4)).getD (i % 4) 0) 0
            (u32 c.sectors * 512)) :=
        if_neg (by have := hends htype; omega)
      obtain ⟨hacc, hret⟩ := written_step (p := p) (w := w) c hw hends iBufForSparse
        (u32 c.sectors) (w.next (copy w.mem iBufForSparse
            (fun i => (Bytes.le 4 (load w.mem (w.imgBase + 12) 4)).getD (i % 4) 0) 0
            (u32 c.sectors * 512)) (u32 c.sectors))
      simp only [chunkStep, hchunk, htype, hstage, hacc, hret]
      refine ⟨by simp [hw, hends], fun hpass => if_neg hpass, fun hpass => ?_⟩
      obtain ⟨hat, hbase⟩ := hnext fun i hi => copy_of_not_mem (.inl hi)
      exact ⟨_, if_pos hpass, hat, hbase⟩
    · have hstage : stageFill w.mem (load w.mem (w.imgBase + 12) 4) (u32 c.sectors) = none :=
        if_pos (by unfold Chunk.Ends at hends; push Not at hends; exact hends.2)
      simp only [chunkStep, hchunk, htype, hstage]
      exact ⟨by simp [hends], fun _ => trivial, fun hpass => absurd hpass.1 hends⟩
  | dontCare | invalid =>
    have hw : ¬c.Written := by simp [Chunk.Written, htype]
    simp only [chunkStep, hchunk, htype]
    refine ⟨by simp [hw], fun hpass => ?_, fun _ => ?_⟩
    · exact absurd ⟨fun hf => by simp [htype] at hf, fun hc => absurd hc hw⟩ hpass
    · exact ⟨_, rfl, hnext fun _ _ => rfl⟩

/-- Device calls that stay between `lo` and `hi`. -/
def SectorsInside (lo hi : ℕ) (as : List Access) : Prop :=
  ∀ a ∈ as, ∀ s, a.Touches s → lo ≤ s ∧ s < hi

/-- Ranges that stay in the image. -/
def RangesInside (img len : ℕ) (rs : List (ℕ × ℕ)) : Prop :=
  ∀ r ∈ rs, img ≤ r.1 ∧ r.1 + r.2 ≤ img + len

theorem sectorsInside_append {as bs : List Access} :
    SectorsInside lo hi (as ++ bs) ↔ SectorsInside lo hi as ∧ SectorsInside lo hi bs :=
  List.forall_mem_append

theorem rangesInside_append {rs qs : List (ℕ × ℕ)} :
    RangesInside img len (rs ++ qs) ↔ RangesInside img len rs ∧ RangesInside img len qs :=
  List.forall_mem_append

/-- The one write of a chunk. -/
theorem sectorsInside_iff {as : List Access} {c : Prop} [Decidable c] {b n : ℕ}
    (h : as.map (fun a => (a.start, a.count)) = if c then [(b, n)] else []) :
    SectorsInside lo hi as ↔ (c → 0 < n → lo ≤ b ∧ b + n ≤ hi) := by
  by_cases hc : c
  · rw [if_pos hc] at h
    obtain ⟨a, rfl, ha⟩ := List.map_eq_singleton_iff.1 h
    obtain ⟨rfl, rfl⟩ := Prod.mk.inj ha
    simp only [SectorsInside, List.mem_singleton, forall_eq, Access.Touches, hc, forall_const]
    constructor
    · intro hs hpos
      have h₁ := hs a.start ⟨le_rfl, by omega⟩
      have h₂ := hs (a.start + a.count - 1) ⟨by omega, by omega⟩
      omega
    · rintro hs s ⟨h₁, h₂⟩
      have := hs (by omega)
      omega
  · rw [if_neg hc] at h
    simp [List.map_eq_nil_iff.1 h, SectorsInside, hc]

/-- What one iteration reads. -/
theorem rangesInside_chunkReads (h : At mem img len off w) (hlen : off + 12 ≤ len) :
    RangesInside img len (chunkReads p img w) ↔
      ((chunkAt mem img off).type = .raw → p.Writes ∨ p.Copies (img + off + 12) →
        off + 12 + u32 (chunkAt mem img off).sectors * 512 ≤ len) ∧
      ((chunkAt mem img off).type = .fill → off + 16 ≤ len) := by
  have hheader : img ≤ w.imgBase ∧ w.imgBase + 12 ≤ img + len := by
    rw [h.imgBase_eq]
    omega
  rw [chunkReads, h.chunk_eq hlen, RangesInside, List.forall_mem_cons, h.imgBase_eq]
  rw [h.imgBase_eq] at hheader
  simp only [hheader, and_self, true_and]
  cases (chunkAt mem img off).type with
  | raw =>
    simp only [reduceCtorEq, false_implies, and_true, true_implies]
    split_ifs with hread
    · simp only [List.mem_singleton, forall_eq, hread, true_implies]
      omega
    · simp [hread]
  | fill =>
    simp only [List.mem_singleton, forall_eq, reduceCtorEq, false_implies, true_and, true_implies]
    omega
  | dontCare => simp
  | invalid => simp

theorem accesses_chunkLoop_succ (p : Platform) (img k : ℕ) (w : Walk) :
    (chunkLoop p img (k + 1) w).accesses = (chunkStep p img w).1 ++
      (chunkStep p img w).2.elim [] fun w' => (chunkLoop p img k w').accesses := by
  rw [chunkLoop]
  split
  · rename_i as heq
    simp [heq]
  · rename_i as w' heq
    simp [heq]

/-- **The walk** stays inside exactly when the chunk headers say so. -/
theorem chunkLoop_inside_iff (hbuf : img + len ≤ iBufForSparse) (k : ℕ) :
    ∀ {off : ℕ} {w : Walk}, At mem img len off w →
      (SectorsInside lo hi (chunkLoop p img k w).accesses ∧
        RangesInside img len (readsLoop p img k w) ↔
      ChunksInside p mem img len lo hi k off w.sectorBase) := by
  induction k with
  | zero => simp [chunkLoop, readsLoop, ChunksInside, SectorsInside, RangesInside]
  | succ k ih =>
    intro off w h
    by_cases hlen : off + 12 ≤ len
    · obtain ⟨hacc, hstop, hgo⟩ := chunkStep_spec (p := p) h hbuf hlen
      have hsectors : SectorsInside lo hi (chunkStep p img w).1 ↔ _ := sectorsInside_iff hacc
      have hreads := rangesInside_chunkReads (p := p) h hlen
      have hinside : (chunkAt mem img off).Inside p img len lo hi off w.sectorBase ↔
          SectorsInside lo hi (chunkStep p img w).1 ∧
            RangesInside img len (chunkReads p img w) := by
        rw [hsectors, hreads]
        constructor
        · exact fun hi => ⟨fun hc => hi.sectors hc.1 hc.2.1 hc.2.2, hi.raw, hi.fill⟩
        · rintro ⟨hs, hr, hf⟩
          exact ⟨hlen, hr, hf, fun h₁ h₂ h₃ => hs ⟨h₁, h₂, h₃⟩⟩
      rw [ChunksInside, hinside, readsLoop, rangesInside_append, accesses_chunkLoop_succ,
        sectorsInside_append, and_and_and_comm]
      refine and_congr_right fun _ => ?_
      by_cases hpass : (chunkAt mem img off).Passed p
      · obtain ⟨w', hw', hat, hbase⟩ := hgo hpass
        rw [hw', Option.elim_some, Option.elim_some, ih hat, hbase]
        exact ⟨fun hc _ => hc, fun hc => hc hpass⟩
      · rw [hstop hpass]
        simp [SectorsInside, RangesInside, hpass]
    · constructor
      · rintro ⟨-, hr⟩
        have := (hr (w.imgBase, 12) (by simp [readsLoop, chunkReads])).2
        rw [h.imgBase_eq] at this
        omega
      · exact fun hc => absurd hc.1.header hlen

end Walk

section Confinement

/-- **Which sparse images are confined.**  An image of `len` bytes in the transfer buffer is
flashed inside its partition and read inside its bytes exactly when its chunk headers keep
to both.  Nothing that `check_compress_ext4` looks at decides it. -/
theorem sparse_image_confined_iff (p : Platform) (mem : ℕ → UInt8)
    (img len partiSize sectorBase : ℕ) (hbuf : img + len ≤ iBufForSparse) :
    SparseConfined p mem img len partiSize sectorBase ↔
      ChunksInside p mem img len sectorBase (sectorBase + partiSize / 512)
        (totalChunks mem img) 28 sectorBase :=
  chunkLoop_inside_iff hbuf _ ⟨rfl, le_rfl, fun _ _ _ => rfl⟩

/-- An image in the transfer buffer: `total_blocks` and `chunk_size` as given, and one fill
chunk. -/
def fillImage (totalBlocks chunkSize : ℕ) : ℕ → UInt8 :=
  store (fun _ => 0) 0x8B000000
    (Bytes.le 4 0xED26FF3A ++ Bytes.le 2 1 ++ Bytes.le 2 0 ++ Bytes.le 2 28 ++ Bytes.le 2 12 ++
      Bytes.le 4 0x1000 ++ Bytes.le 4 totalBlocks ++ Bytes.le 4 1 ++ Bytes.le 4 0 ++
      Bytes.le 2 0xCAC2 ++ Bytes.le 2 0 ++ Bytes.le 4 chunkSize ++ Bytes.le 4 16 ++
      Bytes.le 4 0xDEADBEEF)

/-- A board that boots from UFS. -/
def ufsBoard : Platform := ⟨.ufs, fun _ => true, Access.count, Access.count⟩

/-- A fill chunk of one block in a partition of one block. -/
theorem sparse_image_confined_fill :
    checkCompressExt4 (fillImage 1 1) 0x8B000000 4096 = some 0 ∧
      SparseConfined ufsBoard (fillImage 1 1) 0x8B000000 44 4096 1024 := by
  refine ⟨by decide +kernel,
    (sparse_image_confined_iff ufsBoard (fillImage 1 1) 0x8B000000 44 4096 1024
      (by decide)).2 ?_⟩
  have hchunks : totalChunks (fillImage 1 1) 0x8B000000 = 1 := by decide +kernel
  have hchunk : chunkAt (fillImage 1 1) 0x8B000000 28 = ⟨.fill, 8⟩ := by decide +kernel
  rw [hchunks, ChunksInside, hchunk]
  refine ⟨⟨by decide, ?_, fun _ => by decide, fun _ _ _ _ => by decide⟩, fun _ => trivial⟩
  intro hraw
  cases hraw

/-- **A chunk larger than the image it is in.**  The header says one block and is accepted, the
chunk says two, and eight sectors behind the partition are overwritten. -/
theorem sparse_image_overruns :
    checkCompressExt4 (fillImage 1 2) 0x8B000000 4096 = some 0 ∧
      ¬SparseConfined ufsBoard (fillImage 1 2) 0x8B000000 44 4096 1024 := by
  refine ⟨by decide +kernel, fun h => ?_⟩
  have hacc : (writeCompressedExt4 ufsBoard (fillImage 1 2) 0x8B000000 1024).accesses =
      [⟨.write, scsi0, iBufForSparse, 1024, 16⟩] := by decide +kernel
  rw [SparseConfined, hacc] at h
  have := h.1 _ (List.mem_singleton.2 rfl) 1032 ⟨by decide, by decide⟩
  omega

end Confinement

end Gpt
end LittleKernel
