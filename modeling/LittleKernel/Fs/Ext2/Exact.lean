/-
# A read of an ext2 file is exact

`lib/fs/ext2/io.c` over a block layer of which every read succeeds.

`Serves` is what such a layer gives: a read and a get hand out the block, and a block that
was got can be put.  `fileBlockToFsBlock` then finds the pointer of `filePtr` for each of the
four ranges, level by level, and never holds two blocks.  The three parts of
`ext2_read_inode` each move `Filled` on: what is behind the buffer's first bytes is the file.

The cache of `lib/bcache/bcache.c` is such a layer as long as an entry can be had
(`serves_bcache`).
-/

import Mathlib.Data.UInt
import LittleKernel.Fs.Ext2.Io
import LittleKernel.Bcache
import Mathlib.Algebra.Group.Pi.Basic

namespace LittleKernel
namespace Ext2

open Memory Word

/-! ### A layer that serves -/

/-- Every read and get succeeds.  `Held s b` is `I` but for the one reference to `b`. -/
structure Serves {σ : Type} (L : Layer σ) (I : σ → Prop) (Held : σ → ℕ → Prop)
    (disk : ℕ → Block) : Prop where
  read : ∀ s b, I s → ∃ s', L.readBlock s b = some (s', some (disk b)) ∧ I s'
  get : ∀ s b, I s → ∃ s', L.getBlock s b = some (s', some (disk b)) ∧ Held s' b
  put : ∀ s b, Held s b → ∃ s', L.putBlock s b = some s' ∧ I s'

section Exact

variable {σ : Type} {L : Layer σ} {I : σ → Prop} {Held : σ → ℕ → Prop} {disk : ℕ → Block}
  {sb : SuperBlock} {inode : Inode}

theorem entry_of_lt {b : Block} {i : ℕ} (h : i < sb.addrPerBlock) :
    entry sb b i = some (pointer b i) := if_pos h

theorem foldl_follow_zero (ks : List ℕ) : ks.foldl (follow disk) 0 = 0 := by
  induction ks with
  | nil => rfl
  | cons k ks ih => rwa [List.foldl_cons, follow, if_pos rfl]

/-- **The walk through the tables.**  It stops at the first null pointer, below which there is
nothing, or with the last table, which then is the only block that is held. -/
theorem Serves.dig (h : Serves L I Held disk) (ks : List ℕ)
    (hne : ks ≠ []) (hks : ∀ k ∈ ks, k < sb.addrPerBlock) (s : σ) (hs : I s) (b : ℕ) :
    (∃ s', dig L sb ks s b = some (s', none) ∧ I s' ∧ ks.foldl (follow disk) b = 0) ∨
      ∃ s' t, dig L sb ks s b = some (s', some (disk t, t)) ∧ Held s' t ∧
        ks.foldl (follow disk) b = pointer (disk t) (ks.getLast hne) := by
  induction ks generalizing s b with
  | nil => exact absurd rfl hne
  | cons k ks ih =>
    rcases Nat.eq_zero_or_pos b with rfl | hb
    · exact .inl ⟨s, by rw [Ext2.dig, if_pos rfl], hs, foldl_follow_zero _⟩
    obtain ⟨s₁, hget, hheld⟩ := h.get s b hs
    rcases eq_or_ne ks [] with rfl | hks'
    · refine .inr ⟨s₁, b, ?_, hheld, ?_⟩
      · rw [Ext2.dig, if_neg hb.ne', hget]
        rfl
      · exact if_neg hb.ne'
    · obtain ⟨s₂, hput, hs₂⟩ := h.put s₁ b hheld
      have hstep : Ext2.dig L sb (k :: ks) s b = Ext2.dig L sb ks s₂ (pointer (disk b) k) := by
        rw [Ext2.dig, if_neg hb.ne', hget]
        simp [hks', entry_of_lt (hks k List.mem_cons_self), hput]
      have hfollow : (k :: ks).foldl (follow disk) b
          = ks.foldl (follow disk) (pointer (disk b) k) := by
        rw [List.foldl_cons, follow, if_neg hb.ne']
      rw [hstep, hfollow, List.getLast_cons hks']
      exact ih hks' (fun j hj => hks j (List.mem_cons_of_mem _ hj)) s₂ hs₂ _

/-! ### The four ranges -/

/-- Where the pointer of block `n` of the file is: the level and the positions. -/
structure Located (disk : ℕ → Block) (sb : SuperBlock) (inode : Inode) (n level root : ℕ)
    (ks : List ℕ) : Prop where
  calculated : calculateBlockPointerPos sb n = some (level, root :: ks)
  direct : level = 0 → n < nBlocks ∧ filePtr disk sb inode n = inode.iBlock.getD n 0
  level_le : level ≤ 3
  root_lt : root < nBlocks
  indirect : level ≠ 0 → ks ≠ []
  entries : ∀ k ∈ ks, k < sb.addrPerBlock
  pointer : level ≠ 0 →
    filePtr disk sb inode n = ks.foldl (follow disk) (inode.iBlock.getD root 0)

/-- The sizes of blocks of 1, 2 and 4 KB. -/
theorem sizes (hsb : sb.sLogBlockSize ≤ 2) :
    0 < sb.addrPerBlock ∧ sb.addrPerBlock ≤ 1024 ∧ sb.blockSize = 4 * sb.addrPerBlock := by
  rw [SuperBlock.addrPerBlock, SuperBlock.blockSize]
  have h : sb.sLogBlockSize = 0 ∨ sb.sLogBlockSize = 1 ∨ sb.sLogBlockSize = 2 := by omega
  rcases h with h | h | h <;> rw [h] <;> decide

variable (disk inode) in
/-- Every block of a file in reach is one of the inode, or under one of its three indirect blocks. -/
theorem located (hsb : sb.sLogBlockSize ≤ 2) {n : ℕ} (hn : n < maxBlocks sb) :
    ∃ level root ks, Located disk sb inode n level root ks := by
  obtain ⟨hp, hp', -⟩ := sizes hsb
  rw [maxBlocks] at hn
  generalize hpe : sb.addrPerBlock = p at *
  have hpp : p * p ≤ 2 ^ 20 := (Nat.mul_le_mul hp' hp').trans (by norm_num)
  have hppp : p * p * p ≤ 2 ^ 30 := (Nat.mul_le_mul hpp hp').trans (by norm_num)
  have hu₂ : u32 (p * p) = p * p := u32_of_lt (by omega)
  have hu₃ : u32 (p * p * p) = p * p * p := u32_of_lt (by omega)
  have h2 : p ^ 2 = p * p := by ring
  have h3 : p ^ 3 = p * p * p := by ring
  rw [h2, h3] at hn
  rcases Nat.lt_or_ge n 12 with h₀ | h₀
  · refine ⟨0, n, [], ⟨?_, fun _ => ⟨?_, ?_⟩, by omega, ?_, fun h => absurd rfl h, by simp,
      fun h => absurd rfl h⟩⟩
    · rw [calculateBlockPointerPos, if_pos (by rwa [ndirBlocks])]
    · exact Nat.lt_of_lt_of_le h₀ (by decide)
    · rw [filePtr]
      simp only [hpe, if_pos h₀]
    · exact Nat.lt_of_lt_of_le h₀ (by decide)
  rcases Nat.lt_or_ge n (12 + p) with h₁ | h₁
  · refine ⟨1, indBlock, [n - 12], ⟨?_, by omega, by omega, by decide, by simp, ?_, fun _ => ?_⟩⟩
    · simp [calculateBlockPointerPos, ndirBlocks, hpe, Nat.not_lt.2 h₀, show n - 12 < p by omega]
    · simp only [List.mem_singleton, forall_eq, hpe]
      omega
    · rw [filePtr]
      simp only [hpe, if_neg (Nat.not_lt.2 h₀), if_pos h₁]
      rfl
  rcases Nat.lt_or_ge n (12 + p + p * p) with h₂ | h₂
  · have hdiv : (n - (12 + p)) / p < p := Nat.div_lt_of_lt_mul (by omega)
    refine ⟨2, dindBlock, [(n - (12 + p)) / p, (n - (12 + p)) % p],
      ⟨?_, by omega, by omega, by decide, by simp, ?_, fun _ => ?_⟩⟩
    · simp [calculateBlockPointerPos, ndirBlocks, hpe, hu₂, Nat.not_lt.2 h₀, Nat.sub_sub,
        show ¬ n - 12 < p by omega, show n - (12 + p) < p * p by omega]
    · simp only [List.mem_cons, List.not_mem_nil, or_false, forall_eq_or_imp, forall_eq, hpe]
      exact ⟨hdiv, Nat.mod_lt _ hp⟩
    · rw [filePtr]
      simp only [hpe, h2, if_neg (Nat.not_lt.2 h₀), if_neg (Nat.not_lt.2 h₁), if_pos h₂]
      rfl
  · have hlt : n - (12 + p + p * p) < p * p * p := by omega
    have hdiv : (n - (12 + p + p * p)) / (p * p) < p := Nat.div_lt_of_lt_mul hlt
    have hmid : (n - (12 + p + p * p)) % (p * p) / p = (n - (12 + p + p * p)) / p % p :=
      Nat.mod_mul_right_div_self ..
    have hlow : (n - (12 + p + p * p)) % (p * p) % p = (n - (12 + p + p * p)) % p :=
      Nat.mod_mul_right_mod ..
    refine ⟨3, tindBlock, [(n - (12 + p + p * p)) / (p * p), (n - (12 + p + p * p)) / p % p,
      (n - (12 + p + p * p)) % p], ⟨?_, by omega, by omega, by decide, by simp, ?_, fun _ => ?_⟩⟩
    · simp [calculateBlockPointerPos, ndirBlocks, hpe, hu₂, hu₃, Nat.not_lt.2 h₀, Nat.sub_sub,
        show ¬ n - 12 < p by omega, show ¬ n - (12 + p) < p * p by omega, hlt, hmid, hlow]
    · simp only [List.mem_cons, List.not_mem_nil, or_false, forall_eq_or_imp, forall_eq, hpe]
      exact ⟨hdiv, Nat.mod_lt _ hp, Nat.mod_lt _ hp⟩
    · rw [filePtr]
      simp only [hpe, h2, if_neg (Nat.not_lt.2 h₀), if_neg (Nat.not_lt.2 h₁),
        if_neg (Nat.not_lt.2 h₂)]
      rfl

theorem getElem?_iBlock {i : ℕ} (hi : i < nBlocks) :
    inode.iBlock[i]? = some (inode.iBlock.getD i 0) := by
  have hlt : i < inode.iBlock.length := by rwa [inode.length_iBlock]
  rw [List.getElem?_eq_getElem hlt, List.getD_eq_getElem _ _ hlt]

variable (inode) in
/-- `file_block_to_fs_block` finds the block of the file, and holds nothing. -/
theorem Serves.fileBlockToFsBlock (h : Serves L I Held disk) (hsb : sb.sLogBlockSize ≤ 2) {n : ℕ}
    (hn : n < maxBlocks sb) (s : σ) (hs : I s) :
    ∃ s', fileBlockToFsBlock L sb inode s n = some (s', filePtr disk sb inode n) ∧ I s' := by
  obtain ⟨level, root, ks, hl⟩ := located disk inode hsb hn
  rw [Ext2.fileBlockToFsBlock, hl.calculated]
  rcases Nat.eq_zero_or_pos level with h0 | h0
  · obtain ⟨hlt, hptr⟩ := hl.direct h0
    refine ⟨s, ?_, hs⟩
    simp [-List.getD_eq_getElem?_getD, h0, getElem?_iBlock hlt, hptr]
  have hks := hl.indirect h0.ne'
  have hlevel : ¬ (3 < level ∨ level = 0) := by
    have := hl.level_le
    omega
  have hwalk : getIndirectBlockPointerCacheBlock L sb inode s level (root :: ks)
      = Ext2.dig L sb ks s (inode.iBlock.getD root 0) := by
    rw [getIndirectBlockPointerCacheBlock, if_neg hlevel, List.head?_cons, Option.bind_eq_bind,
      Option.bind_some, getElem?_iBlock hl.root_lt]
    rfl
  rw [hl.pointer h0.ne']
  simp only [Option.getD_some, if_neg h0.ne', hwalk]
  rcases h.dig ks hks hl.entries s hs (inode.iBlock.getD root 0) with
    ⟨s', hdig, hs', hptr⟩ | ⟨s₁, t, hdig, hheld, hptr⟩
  · rw [hdig, hptr]
    exact ⟨s', rfl, hs'⟩
  · obtain ⟨s', hput, hs'⟩ := h.put s₁ t hheld
    have hlast : (root :: ks).getLast? = some (ks.getLast hks) := by
      rw [List.getLast?_eq_some_getLast (List.cons_ne_nil _ _), List.getLast_cons hks]
    refine ⟨s', ?_, hs'⟩
    rw [hdig, hptr]
    simp only [Option.bind_eq_bind, Option.bind_some, hlast,
      entry_of_lt (hl.entries _ (List.getLast_mem hks)), hput]

/-! ### The file in the buffer -/

variable (inode) in
/-- What is loaded for block `n` of the file is that block. -/
theorem Serves.loadFileBlock (h : Serves L I Held disk) (hsb : sb.sLogBlockSize ≤ 2) {n : ℕ}
    (hn : n < maxBlocks sb) (s : σ) (hs : I s) (stale : Block) :
    ∃ s' data, loadFileBlock L sb inode s n stale = some (s', data) ∧ I s' ∧
      ∀ i < sb.blockSize, data i = fileByte disk sb inode (n * sb.blockSize + i) := by
  obtain ⟨s₁, hptr, hs₁⟩ := h.fileBlockToFsBlock inode hsb hn s hs
  have hbyte : ∀ i < sb.blockSize, fileByte disk sb inode (n * sb.blockSize + i)
      = if filePtr disk sb inode n = 0 then 0 else disk (filePtr disk sb inode n) i := by
    intro i hi
    have hdiv : (n * sb.blockSize + i) / sb.blockSize = n := by
      rw [Nat.mul_comm, Nat.mul_add_div (by omega), Nat.div_eq_of_lt hi, Nat.add_zero]
    have hmod : (n * sb.blockSize + i) % sb.blockSize = i := by
      rw [Nat.mul_comm, Nat.mul_add_mod, Nat.mod_eq_of_lt hi]
    rw [fileByte, hdiv, hmod]
  rw [Ext2.loadFileBlock, hptr, Option.bind_eq_bind, Option.bind_some]
  rcases Nat.eq_zero_or_pos (filePtr disk sb inode n) with h0 | h0
  · refine ⟨s₁, fun _ => 0, if_pos h0, hs₁, fun i hi => ?_⟩
    rw [hbyte i hi, if_pos h0]
  · obtain ⟨s', hread, hs'⟩ := h.read s₁ (filePtr disk sb inode n) hs₁
    refine ⟨s', disk (filePtr disk sb inode n), ?_, hs', fun i hi => ?_⟩
    · simp [h0.ne', hread]
    · rw [hbyte i hi, if_neg h0.ne']

/-- The first bytes of the buffer are the file from `offset` on, and the next block of the file
is the one the rest starts with. -/
structure Filled (disk : ℕ → Block) (sb : SuperBlock) (inode : Inode) (mem : ℕ → UInt8)
    (offset total : ℕ) (p : Progress) : Prop where
  filled : p.mem = copy mem 0 (fileByte disk sb inode) offset p.bytesRead
  length : p.bytesRead + p.len = total
  aligned : p.len = 0 ∨ p.fileBlock * sb.blockSize = offset + p.bytesRead

variable {mem : ℕ → UInt8} {offset total : ℕ} {p : Progress}

theorem maxBlocks_lt (hsb : sb.sLogBlockSize ≤ 2) : maxBlocks sb < 2 ^ 32 := by
  obtain ⟨-, hp, -⟩ := sizes hsb
  have h2 : sb.addrPerBlock ^ 2 ≤ 1024 ^ 2 := Nat.pow_le_pow_left hp 2
  have h3 : sb.addrPerBlock ^ 3 ≤ 1024 ^ 3 := Nat.pow_le_pow_left hp 3
  rw [maxBlocks]
  omega

/-- **One block is copied out**, from byte `o` on, to its end or as far as is asked for. -/
theorem filled_copyOut (hsb : sb.sLogBlockSize ≤ 2) {data : Block} {o k : ℕ}
    (hn : p.fileBlock < maxBlocks sb)
    (hfilled : p.mem = copy mem 0 (fileByte disk sb inode) offset p.bytesRead)
    (hlength : p.bytesRead + p.len = total)
    (hat : p.fileBlock * sb.blockSize + o = offset + p.bytesRead)
    (hdata : ∀ i < sb.blockSize, data i = fileByte disk sb inode (p.fileBlock * sb.blockSize + i))
    (hk : k ≤ p.len) (hfit : o + k ≤ sb.blockSize) (hend : k = p.len ∨ o + k = sb.blockSize) :
    Filled disk sb inode mem offset total (p.copyOut data o k) := by
  have hnext : u32 (p.fileBlock + 1) = p.fileBlock + 1 :=
    u32_of_lt (by have := maxBlocks_lt hsb; omega)
  refine ⟨?_, ?_, ?_⟩
  · have hsame : copy p.mem p.bytesRead data o k
        = copy p.mem (0 + p.bytesRead) (fileByte disk sb inode) (offset + p.bytesRead) k := by
      rw [Nat.zero_add]
      refine copy_congr fun i hi => ?_
      rw [hdata (o + i) (by omega), ← hat, Nat.add_assoc]
    rw [Progress.copyOut, hsame, hfilled, copy_append]
  · simp only [Progress.copyOut]
    omega
  · simp only [Progress.copyOut, hnext, Nat.add_mul, Nat.one_mul]
    omega

/-- Every byte that is asked for is in a block that the pointers reach. -/
def Reached (sb : SuperBlock) (offset total : ℕ) : Prop :=
  ∀ x, offset ≤ x → x < offset + total → x / sb.blockSize < maxBlocks sb

theorem Filled.reached (hsb : sb.sLogBlockSize ≤ 2) (hr : Reached sb offset total)
    (hp : Filled disk sb inode mem offset total p) (hlen : 0 < p.len) :
    p.fileBlock * sb.blockSize = offset + p.bytesRead ∧ p.fileBlock < maxBlocks sb := by
  obtain ⟨h₀, -, hbs⟩ := sizes hsb
  have hat := hp.aligned.resolve_left hlen.ne'
  have hlength := hp.length
  refine ⟨hat, ?_⟩
  have := hr (offset + p.bytesRead) (by omega) (by omega)
  rwa [← hat, Nat.mul_div_cancel _ (by omega)] at this

variable (inode mem) in
theorem Serves.readFirst (h : Serves L I Held disk) (hsb : sb.sLogBlockSize ≤ 2)
    (hr : Reached sb offset total) (htotal : 0 < total) (temp : Block) (s : σ) (hs : I s) :
    ∃ s' p, readFirst L sb inode temp s offset ⟨mem, 0, u32 (offset / sb.blockSize), total⟩
      = some (s', p) ∧ I s' ∧ Filled disk sb inode mem offset total p := by
  obtain ⟨h₀, -, hbs⟩ := sizes hsb
  have hn : offset / sb.blockSize < maxBlocks sb := hr offset le_rfl (by omega)
  have hu : u32 (offset / sb.blockSize) = offset / sb.blockSize :=
    u32_of_lt (by have := maxBlocks_lt hsb; omega)
  have hmod : offset % sb.blockSize < sb.blockSize := Nat.mod_lt _ (by omega)
  have hdm : offset / sb.blockSize * sb.blockSize + offset % sb.blockSize = offset :=
    Nat.div_add_mod' ..
  rw [hu, Ext2.readFirst]
  by_cases h0 : offset % sb.blockSize ≠ 0
  · obtain ⟨s', data, hload, hs', hdata⟩ := h.loadFileBlock inode hsb hn s hs temp
    refine ⟨s', _, ?_, hs', filled_copyOut (o := offset % sb.blockSize)
      (k := min total (sb.blockSize - offset % sb.blockSize))
      (p := ⟨mem, 0, offset / sb.blockSize, total⟩) hsb hn (by simp) (by simp) hdm hdata ?_ ?_ ?_⟩
    · simp [h0, hload]
    · exact Nat.min_le_left ..
    · omega
    · simp only
      omega
  · refine ⟨s, _, if_neg h0, hs, by simp, by simp, .inr ?_⟩
    simp only
    omega

theorem Serves.readMiddle (h : Serves L I Held disk) (hsb : sb.sLogBlockSize ≤ 2)
    (hr : Reached sb offset total) (fuel : ℕ) (s : σ) (hs : I s) (p : Progress)
    (hp : Filled disk sb inode mem offset total p) (hfuel : p.len < fuel) :
    ∃ s' p', readMiddle L sb inode fuel s p = some (s', p') ∧ I s' ∧
      Filled disk sb inode mem offset total p' ∧ p'.len < sb.blockSize := by
  obtain ⟨h₀, -, hbs⟩ := sizes hsb
  induction fuel generalizing s p with
  | zero => omega
  | succ fuel ih =>
    rw [Ext2.readMiddle]
    by_cases hlen : sb.blockSize ≤ p.len
    · obtain ⟨hat, hn⟩ := hp.reached hsb hr (by omega)
      obtain ⟨s₁, data, hload, hs₁, hdata⟩ := h.loadFileBlock inode hsb hn s hs
        fun i => p.mem (p.bytesRead + i)
      have hp₁ : Filled disk sb inode mem offset total (p.copyOut data 0 sb.blockSize) :=
        filled_copyOut hsb hn hp.filled hp.length hat hdata hlen (by omega) (.inr (by omega))
      have hshort : (p.copyOut data 0 sb.blockSize).len < fuel := by
        simp only [Progress.copyOut]
        omega
      rw [if_pos hlen, hload]
      exact ih s₁ hs₁ _ hp₁ hshort
    · rw [if_neg hlen]
      exact ⟨s, p, rfl, hs, hp, by omega⟩

theorem Serves.readLast (h : Serves L I Held disk) (hsb : sb.sLogBlockSize ≤ 2)
    (hr : Reached sb offset total) (temp : Block) (s : σ) (hs : I s) (p : Progress)
    (hp : Filled disk sb inode mem offset total p) (hlen : p.len < sb.blockSize) :
    ∃ s' p', readLast L sb inode temp s p = some (s', p') ∧ I s' ∧
      Filled disk sb inode mem offset total p' ∧ p'.len = 0 := by
  rw [Ext2.readLast]
  rcases Nat.eq_zero_or_pos p.len with h0 | h0
  · rw [if_neg (by omega)]
    exact ⟨s, p, rfl, hs, hp, h0⟩
  · obtain ⟨hat, hn⟩ := hp.reached hsb hr h0
    obtain ⟨s', data, hload, hs', hdata⟩ := h.loadFileBlock inode hsb hn s hs temp
    rw [if_pos h0, hload]
    refine ⟨s', _, rfl, hs', ?_, ?_⟩
    · exact filled_copyOut hsb hn hp.filled hp.length hat hdata le_rfl (by omega) (.inl rfl)
    · simp [Progress.copyOut]

variable (inode mem) in
/-- A read over a layer that serves. -/
theorem Serves.ext2ReadInode (h : Serves L I Held disk) (hsb : sb.sLogBlockSize ≤ 2) {len : ℕ}
    (hlen : offset + len < 2 ^ 64) (hr : Reached sb offset (readLen sb inode offset len))
    (temp : Block) (s : σ) (hs : I s) :
    ∃ s', ext2ReadInode L sb inode temp s mem offset len
      = some (s', copy mem 0 (fileByte disk sb inode) offset (readLen sb inode offset len),
          (readLen sb inode offset len : ℤ)) ∧ I s' := by
  rw [Ext2.ext2ReadInode]
  by_cases hpast : (offset : ℤ) > ext2FileLen sb inode
  · have h0 : readLen sb inode offset len = 0 := by
      rw [readLen]
      omega
    refine ⟨s, ?_, hs⟩
    simp [hpast, h0]
  have htrim : (if u64 (offset + len) ≥ (ext2FileLen sb inode).toNat then
      (ext2FileLen sb inode).toNat - offset else len) = readLen sb inode offset len := by
    rw [u64_of_lt hlen, readLen]
    split_ifs <;> omega
  simp only [if_neg hpast, htrim]
  rcases Nat.eq_zero_or_pos (readLen sb inode offset len) with h0 | h0
  · refine ⟨s, ?_, hs⟩
    simp [h0]
  rw [if_neg h0.ne']
  generalize readLen sb inode offset len = total at *
  obtain ⟨s₁, p₁, hfirst, hs₁, hp₁⟩ :=
    h.readFirst inode mem hsb hr h0 temp s hs
  have hlength := hp₁.length
  obtain ⟨s₂, p₂, hmiddle, hs₂, hp₂, hshort⟩ :=
    h.readMiddle hsb hr (total + 1) s₁ hs₁ p₁ hp₁ (by omega)
  obtain ⟨s₃, p₃, hlast, hs₃, hp₃, hend⟩ := h.readLast hsb hr temp s₂ hs₂ p₂ hp₂ hshort
  have hall : p₃.bytesRead = total := by
    have := hp₃.length
    omega
  refine ⟨s₃, ?_, hs₃⟩
  simp only [hfirst, Option.bind_eq_bind, Option.bind_some, hmiddle, hlast, hp₃.filled, hall]

end Exact

/-! ### The cache below -/

section Cached

open Bcache

/-- A block that a call of the cache hands out. -/
def handedOut : Out Block → Option Block
  | .data v => some v
  | .ret _ => none

/-- `ext2_read_block`, `ext2_get_block` and `ext2_put_block` on the block cache. -/
def bcacheLayer : Layer (Cache Block) where
  readBlock c b := (bcacheStep c (.read b)).map fun (c, out) => (c, handedOut out)
  getBlock c b := (bcacheStep c (.get b)).map fun (c, out) => (c, handedOut out)
  putBlock c b := (bcacheStep c (.put b)).map Prod.fst

/-- The cache is well formed, an entry can be had, and `disk` and `refs` are its store and the
references to its blocks. -/
structure Quiet (n : ℕ) (disk : ℕ → Block) (refs : ℕ → ℕ) (c : Cache Block) : Prop where
  inv : Bcache.Inv n c
  available : Available c
  logical_eq : logical c = disk
  references_eq : references c = refs

/-- A quiet cache but for one more reference to `b`. -/
def Holding (n : ℕ) (disk : ℕ → Block) (refs : ℕ → ℕ) (c : Cache Block) (b : ℕ) : Prop :=
  ∃ c₀ i, Quiet n disk refs c₀ ∧ Cached c₀ b i ∧
    c = { c₀ with refCount := Function.update c₀.refCount i (c₀.refCount i + 1) }

variable {n : ℕ} {disk : ℕ → Block} {refs : ℕ → ℕ}

/-- The entry of a block, in a cache that is quiet still. -/
theorem Quiet.findOrFillBlock {c : Cache Block} (h : Quiet n disk refs c) (b : ℕ) :
    ∃ i c', findOrFillBlock c b = some (i, c') ∧ Quiet n disk refs c' ∧ Cached c' b i ∧
      c'.ptr i = disk b := by
  obtain ⟨i, c', hf, hinv, hc, hl, -⟩ := h.inv.findOrFillBlock (b := b) (.inr h.available)
  obtain ⟨hrefs, hav⟩ := h.inv.findOrFillBlock_keeps h.available hf
  have hdisk : logical c' = disk := hl.trans h.logical_eq
  refine ⟨i, c', hf, ⟨hinv, hav, hdisk, hrefs.trans h.references_eq⟩, hc, ?_⟩
  rw [← hinv.logical_of_cached hc, hdisk]

/-- Moving an entry to the end of the list leaves the cache quiet. -/
theorem Quiet.moveToTail {c : Cache Block} {i : ℕ} (h : Quiet n disk refs c)
    (hi : i ∈ c.lruList) : Quiet n disk refs (moveToTail c i) := by
  have hm := h.inv.mem_moveToTail hi
  have hav : Available (Bcache.moveToTail c i) :=
    h.available.imp id fun ⟨k, hk, h0⟩ => ⟨k, (hm k).2 hk, h0⟩
  have hrefs : references (Bcache.moveToTail c i) = references c :=
    h.inv.references_congr (h.inv.moveToTail hi) (fun _ k => and_congr_left' (hm k)) fun _ => rfl
  exact ⟨h.inv.moveToTail hi, hav, (h.inv.logical_moveToTail hi).trans h.logical_eq,
    hrefs.trans h.references_eq⟩

theorem serves_bcache : Serves bcacheLayer (Quiet n disk refs) (Holding n disk refs) disk where
  read c b hc := by
    obtain ⟨i, c', hf, hc', -, hptr⟩ := hc.findOrFillBlock b
    refine ⟨c', ?_, hc'⟩
    simp [bcacheLayer, bcacheStep, hf, handedOut, hptr]
  get c b hc := by
    obtain ⟨i, c', hf, hc', hi, hptr⟩ := hc.findOrFillBlock b
    refine ⟨_, ?_, c', i, hc', hi, rfl⟩
    simp [bcacheLayer, bcacheStep, hf, handedOut, hptr]
  put c b hc := by
    obtain ⟨c₀, i, hc₀, hi, rfl⟩ := hc
    have hfind : Bcache.findBlock
        { c₀ with refCount := Function.update c₀.refCount i (c₀.refCount i + 1) } b
        = some (i, Bcache.moveToTail
          { c₀ with refCount := Function.update c₀.refCount i (c₀.refCount i + 1) } i) := by
      rw [Bcache.findBlock]
      simp only [hc₀.inv.find?_eq hi, Option.map_some]
    refine ⟨Bcache.moveToTail c₀ i, ?_, hc₀.moveToTail hi.1⟩
    simp [bcacheLayer, bcacheStep, hfind, Bcache.moveToTail]

/-- **A read is exact.**  Over a cache that has an entry to spare, a read of the bytes from
`offset` on of a file with blocks of 1, 2 or 4 KB, as long as the bytes are in blocks that
the pointers reach, returns as many bytes as there are up to the end of the file or to
`len`; these are the bytes of the file; nothing else in memory is changed.  The store is what
it was and so is the number of references to each of its blocks. -/
theorem ext2_read_inode_exact (c : Cache Block) (hc : Bcache.Inv n c) (hav : Available c)
    (sb : SuperBlock) (hsb : sb.sLogBlockSize ≤ 2) (inode : Inode) (temp : Block)
    (mem : ℕ → UInt8) (offset len : ℕ) (hlen : offset + len < 2 ^ 64)
    (hreach : ∀ x, offset ≤ x → x < offset + readLen sb inode offset len →
      x / sb.blockSize < maxBlocks sb) :
    ∃ c', ext2ReadInode bcacheLayer sb inode temp c mem offset len
        = some (c', copy mem 0 (fileByte (logical c) sb inode) offset (readLen sb inode offset len),
          (readLen sb inode offset len : ℤ)) ∧
      (Bcache.Inv n c' ∧ Available c') ∧ logical c' = logical c ∧ references c' = references c := by
  obtain ⟨c', hread, hc'⟩ := serves_bcache.ext2ReadInode inode mem hsb hlen
    hreach temp c ⟨hc, hav, rfl, rfl⟩
  exact ⟨c', hread, ⟨hc'.inv, hc'.available⟩, hc'.logical_eq, hc'.references_eq⟩

/-- A file of 12 holes, behind which block 3 points to block 4. -/
def holed : Inode where
  iMode := 0o100644
  iSize := 12290
  iSizeHigh := 0
  iBlock := [0, 0, 0, 0, 0, 0, 0, 0, 0, 0, 0, 0, 3, 0, 0]
  iSize_lt := by decide
  iSizeHigh_lt := by decide
  length_iBlock := by decide

/-- The last byte of the holes and what is left of the file, through a cache of one entry. -/
theorem ext2_read_inode_exact_holed :
    ∃ c' mem, ext2ReadInode bcacheLayer ⟨0, 0⟩ holed (fun _ => 1)
        (bcacheCreate 1 (fun _ => 0) (fun _ _ => 0) fun b i =>
          if b = 3 then (if i = 0 then 4 else 0) else 9) (fun _ => 7) 12287 5
        = some (c', mem, 3) ∧
      mem 0 = 0 ∧ mem 1 = 9 ∧ mem 2 = 9 ∧ mem 3 = 7 ∧ references c' 3 = 0 := by
  have hav : Available (bcacheCreate 1 (fun _ => 0) (fun _ _ => (0 : UInt8)) fun b i =>
      if b = 3 then (if i = 0 then 4 else 0) else 9) := .inl (List.cons_ne_nil _ _)
  have hread : readLen ⟨0, 0⟩ holed 12287 5 = 3 := by decide
  obtain ⟨c', h, -, -, hrefs⟩ := ext2_read_inode_exact (n := 1) _
    (inv_bcacheCreate 1 (fun _ => 0) (fun _ _ => 0) fun b i =>
      if b = 3 then (if i = 0 then 4 else 0) else 9) hav ⟨0, 0⟩ (by decide) holed (fun _ => 1)
    (fun _ => 7) 12287 5 (by decide) (by
      intro x hx hx'
      rw [hread] at hx'
      have hblock : SuperBlock.blockSize ⟨0, 0⟩ = 1024 := by decide
      have hmax : maxBlocks ⟨0, 0⟩ = 16843020 := by decide
      rw [hblock, hmax]
      omega)
  rw [hread] at h
  refine ⟨c', _, h, ?_, ?_, ?_, ?_, ?_⟩
  · decide
  · decide
  · decide
  · decide
  · rw [hrefs]
    rfl

end Cached

end Ext2
end LittleKernel
