/-
# Clusters of a FAT volume

`lib/fs/fat32/file.c`: `fat32_next_cluster_in_chain` and `fat32_offset_for_cluster`, over the
device and the cache of `fat_fs_t`.

`Volume` is what the tables mean: an entry has 28 bits or 16 and its place is its number times
its width; the data begin behind the tables and, on FAT16, behind the root directory.  The two
functions agree with it on some volumes only: the lookup takes every block for 128 entries,
does not drop the four bits that are reserved, and takes a block that cannot be read for the
end of the chain; the data begin right behind the tables.
-/

import LittleKernel.Lib.Memory
import LittleKernel.Lib.Bytes
import LittleKernel.Lib.Word

namespace LittleKernel
namespace Fat32

open Bytes Memory Word

/-! ### The file system and its device -/

/-- The fields of `fat_fs_t` that the lookups read. -/
structure FatFs where
  lbaStart : ℕ
  bytesPerSector : ℕ
  sectorsPerCluster : ℕ
  bytesPerCluster : ℕ
  reservedSectors : ℕ
  fatBits : ℕ
  fatCount : ℕ
  sectorsPerFat : ℕ
  rootEntries : ℕ
  dataStart : ℕ
  totalClusters : ℕ
  rootCluster : ℕ
  deriving DecidableEq

/-- The device: its contents, the transfers that fail, each with its error, an `int`, and what it
leaves, and what the cache hands out for a block. -/
structure Device where
  totalSize : ℕ
  contents : ℕ → UInt8
  readError : ℕ → ℕ → Option (Fin (2 ^ 31) × (ℕ → UInt8))
  getBlock : ℕ → Option (ℕ → UInt8)

/-- `bio_trim_range`. -/
def Device.trimRange (d : Device) (offset len : ℕ) : ℕ :=
  if d.totalSize ≤ offset then 0 else min len (d.totalSize - offset)

/-- `bio_read` to position `dst` of `mem`: what it returns, and the memory then. -/
def Device.bioRead (d : Device) (mem : ℕ → UInt8) (dst offset len : ℕ) : ℤ × (ℕ → UInt8) :=
  let n := d.trimRange offset len
  if n = 0 then (0, mem)
  else
    match d.readError offset n with
    | some (e, junk) => (Int.negSucc e, copy mem dst junk 0 n)
    | none => (n, copy mem dst d.contents offset n)

/-- What a transfer can have changed. -/
theorem Device.bioRead_frame (d : Device) (mem : ℕ → UInt8) (dst offset len : ℕ) {i : ℕ}
    (hi : i < dst ∨ dst + len ≤ i) : (d.bioRead mem dst offset len).2 i = mem i := by
  have hn : d.trimRange offset len ≤ len := by
    rw [trimRange]
    split_ifs <;> omega
  rw [bioRead]
  split_ifs
  · rfl
  · split
    · exact copy_of_not_mem (by omega)
    · exact copy_of_not_mem (by omega)

/-- The last cluster of a chain, to the lookups. -/
def endOfChain : ℕ := 0x0fffffff

section Model

variable (fat : FatFs) (d : Device)

/-- The block and the index at which the entry of a cluster is looked up. -/
def entryBlock (cluster : ℕ) : ℕ :=
  u32 (fat.lbaStart / fat.bytesPerSector + (fat.reservedSectors + cluster / 128))

/-- `fat32_next_cluster_in_chain`. -/
def nextClusterInChain (cluster : ℕ) : ℕ :=
  let fatIndex := cluster % 128
  match d.getBlock (entryBlock fat cluster) with
  | none => endOfChain
  | some table =>
    if fat.fatBits = 32 then ofLe (window table (4 * fatIndex) 4)
    else if fat.fatBits = 16 then
      let nextCluster := ofLe (window table (2 * fatIndex) 2)
      if 0xfff0 < nextCluster then nextCluster ||| 0x0fff0000 else nextCluster
    else endOfChain

/-- `fat32_offset_for_cluster`. -/
def offsetForCluster (cluster : ℕ) : ℕ :=
  let clusterBeginLba := u32 (fat.reservedSectors + fat.fatCount * fat.sectorsPerFat)
  fat.lbaStart + (clusterBeginLba + u32 (sub32 cluster 2 * fat.sectorsPerCluster)) *
    fat.bytesPerSector

/-- The clusters that the lookups lead to from `start`. -/
def cluster (start i : ℕ) : ℕ := (nextClusterInChain fat d)^[i] start

theorem cluster_succ (start i : ℕ) :
    cluster fat d start (i + 1) = nextClusterInChain fat d (cluster fat d start i) :=
  Function.iterate_succ_apply' ..

end Model

/-! ### What the tables mean -/

/-- What `fat32_mount` makes sure of for any boot sector. -/
structure Mounted (fat : FatFs) : Prop where
  lbaStart : fat.lbaStart = 1024
  sector : fat.bytesPerSector = 512 ∨ fat.bytesPerSector = 1024 ∨ fat.bytesPerSector = 2048
  sectorsPerCluster : ∃ k ≤ 7, fat.sectorsPerCluster = 2 ^ k
  bytesPerCluster : fat.bytesPerCluster = fat.sectorsPerCluster * fat.bytesPerSector

/-- **A well-formed volume**: the file system as it is mounted from a sound boot sector, on a
device that holds all of it. -/
structure Volume (fat : FatFs) (d : Device) : Prop extends Mounted fat where
  width : (fat.fatBits = 32 ∧ fat.rootEntries = 0 ∧ fat.totalClusters + 2 ≤ 0x0ffffff7) ∨
    (fat.fatBits = 16 ∧ 0 < fat.rootEntries ∧ fat.totalClusters + 2 ≤ 0xfff7)
  dataStart : fat.dataStart = fat.reservedSectors + fat.fatCount * fat.sectorsPerFat +
    fat.rootEntries * 32 / fat.bytesPerSector
  table : (fat.totalClusters + 2) * (fat.fatBits / 8) ≤ fat.sectorsPerFat * fat.bytesPerSector
  copies : 0 < fat.fatCount
  sectors : fat.dataStart + fat.totalClusters * fat.sectorsPerCluster < 2 ^ 32
  size : fat.lbaStart + (fat.dataStart + fat.totalClusters * fat.sectorsPerCluster) *
    fat.bytesPerSector ≤ d.totalSize
  blocks : ∀ b t, d.getBlock b = some t → (b + 1) * fat.bytesPerSector ≤ d.totalSize →
    ∀ i < fat.bytesPerSector, t i = d.contents (b * fat.bytesPerSector + i)

section Meaning

variable (fat : FatFs) (d : Device)

/-- The entry of a cluster in the table, with the bits that are reserved. -/
def rawEntry (c : ℕ) : ℕ :=
  ofLe (window d.contents
    (fat.lbaStart + fat.reservedSectors * fat.bytesPerSector + c * (fat.fatBits / 8))
    (fat.fatBits / 8))

/-- The entry of a cluster: 28 bits of FAT32, 16 of FAT16. -/
def fatEntry (c : ℕ) : ℕ := if fat.fatBits = 32 then rawEntry fat d c % 2 ^ 28 else rawEntry fat d c

/-- The entry is an end mark. -/
def IsEnd (entry : ℕ) : Prop := (if fat.fatBits = 32 then 0x0ffffff8 else 0xfff8) ≤ entry

instance (entry : ℕ) : Decidable (IsEnd fat entry) := inferInstanceAs (Decidable (_ ≤ _))

/-- Where the data of a cluster are. -/
def dataPlace (c : ℕ) : ℕ :=
  fat.lbaStart + (fat.dataStart + (c - 2) * fat.sectorsPerCluster) * fat.bytesPerSector

/-- **The chain of a file** of `length` bytes: clusters of the volume, each named by the entry
of the one before, and just as many as the length takes. -/
structure Chain (start length : ℕ) (clusters : List ℕ) : Prop where
  start_eq : ∀ h : 0 < clusters.length, clusters[0] = start
  inside : ∀ c ∈ clusters, 2 ≤ c ∧ c < fat.totalClusters + 2
  linked : ∀ i (h : i + 1 < clusters.length), fatEntry fat d clusters[i] = clusters[i + 1]
  ended : ∀ h : clusters ≠ [], IsEnd fat (fatEntry fat d (clusters.getLast h))
  enough : length ≤ clusters.length * fat.bytesPerCluster
  needed : clusters ≠ [] → (clusters.length - 1) * fat.bytesPerCluster < length
  length_lt : length < 2 ^ 32

/-- Byte `x` of a file with these clusters. -/
def fileByte (clusters : List ℕ) (x : ℕ) : UInt8 :=
  d.contents (dataPlace fat (clusters.getD (x / fat.bytesPerCluster) 0) + x % fat.bytesPerCluster)

end Meaning

/-! ### Where the lookups agree -/

/-- The lookups find the clusters of a chain and their data. -/
structure Found (fat : FatFs) (d : Device) (clusters : List ℕ) : Prop where
  placed : ∀ c ∈ clusters, offsetForCluster fat c = dataPlace fat c
  linked : ∀ i (h : i + 1 < clusters.length),
    nextClusterInChain fat d clusters[i] = clusters[i + 1]
  ended : ∀ h : clusters ≠ [],
    nextClusterInChain fat d (clusters.getLast h) ≠ clusters.getLast h + 1

/-- A volume on which they do: it is FAT32 with sectors of 512 bytes, the blocks of the entries
can be got, and the reserved bits of the entries are clear. -/
structure Plain (fat : FatFs) (d : Device) (clusters : List ℕ) : Prop where
  bits : fat.fatBits = 32
  sector : fat.bytesPerSector = 512
  served : ∀ c ∈ clusters, ∃ t, d.getBlock (entryBlock fat c) = some t
  clear : ∀ c ∈ clusters, rawEntry fat d c < 2 ^ 28

section Agree

variable {fat : FatFs} {d : Device} {start length : ℕ} {clusters : List ℕ}

theorem Mounted.sectorsPerCluster_pos (hm : Mounted fat) : 0 < fat.sectorsPerCluster := by
  obtain ⟨k, -, hk⟩ := hm.sectorsPerCluster
  rw [hk]
  exact Nat.two_pow_pos k

theorem Mounted.bytesPerCluster_pos (hm : Mounted fat) : 0 < fat.bytesPerCluster := by
  have hs := hm.sector
  rw [hm.bytesPerCluster]
  exact Nat.mul_pos hm.sectorsPerCluster_pos (by omega)

/-- The lookup reads the entry of a cluster. -/
theorem Volume.nextClusterInChain (hv : Volume fat d) (hl : Plain fat d clusters) {c : ℕ}
    (hc : c ∈ clusters) (h2 : 2 ≤ c) (hin : c < fat.totalClusters + 2) :
    nextClusterInChain fat d c = fatEntry fat d c := by
  obtain ⟨t, ht⟩ := hl.served c hc
  have hclear := hl.clear c hc
  have htable := hv.table
  have hsize := hv.size
  have hdata := hv.dataStart
  have hsectors := hv.sectors
  have hcluster : fat.totalClusters ≤ fat.totalClusters * fat.sectorsPerCluster :=
    Nat.le_mul_of_pos_right _ hv.toMounted.sectorsPerCluster_pos
  have hspf : fat.sectorsPerFat ≤ fat.fatCount * fat.sectorsPerFat :=
    Nat.le_mul_of_pos_left _ hv.copies
  rw [hl.bits, hl.sector] at htable
  rw [hv.lbaStart, hl.sector] at hsize
  rw [hl.sector] at hdata
  -- the block of the entry is one of the first table
  have hblock : entryBlock fat c = 2 + (fat.reservedSectors + c / 128) := by
    rw [entryBlock, hv.lbaStart, hl.sector]
    exact u32_of_lt (by omega)
  have hin' : (entryBlock fat c + 1) * fat.bytesPerSector ≤ d.totalSize := by
    rw [hblock, hl.sector]
    omega
  have hbytes : window t (4 * (c % 128)) 4 = window d.contents
      (fat.lbaStart + fat.reservedSectors * fat.bytesPerSector + c * (fat.fatBits / 8))
      (fat.fatBits / 8) := by
    rw [hl.bits, hl.sector, hv.lbaStart]
    refine window_congr fun i hi => ?_
    have hi' : i < 4 := hi
    rw [hv.blocks _ t ht hin' _ (by rw [hl.sector]; omega), hl.sector, hblock]
    congr 1
    omega
  rw [fatEntry, if_pos hl.bits, Nat.mod_eq_of_lt hclear, Fat32.nextClusterInChain, ht]
  simp only [hl.bits, if_true]
  rw [hbytes, rawEntry]

/-- On FAT32 the data begin right behind the tables. -/
theorem Volume.offsetForCluster (hv : Volume fat d) (hbits : fat.fatBits = 32) {c : ℕ} (h2 : 2 ≤ c)
    (hin : c < fat.totalClusters + 2) : offsetForCluster fat c = dataPlace fat c := by
  obtain ⟨hroot, hcount⟩ : fat.rootEntries = 0 ∧ fat.totalClusters + 2 ≤ 0x0ffffff7 := by
    rcases hv.width with h | h
    · exact h.2
    · omega
  have hsectors := hv.sectors
  have hdata : fat.dataStart = fat.reservedSectors + fat.fatCount * fat.sectorsPerFat := by
    rw [hv.dataStart, hroot, Nat.zero_mul, Nat.zero_div, Nat.add_zero]
  have hlt : (c - 2) * fat.sectorsPerCluster ≤ fat.totalClusters * fat.sectorsPerCluster :=
    Nat.mul_le_mul_right _ (by omega)
  have hbegin : u32 (fat.reservedSectors + fat.fatCount * fat.sectorsPerFat) = fat.dataStart := by
    rw [hdata]
    exact u32_of_lt (by omega)
  have hsub : sub32 c 2 = c - 2 := sub32_of_le (by omega) h2
  rw [Fat32.offsetForCluster, dataPlace, hbegin, hsub, u32_of_lt (by omega)]

theorem Volume.totalClusters_le (hv : Volume fat d) : fat.totalClusters + 2 ≤ 0x0ffffff7 := by
  rcases hv.width with h | h <;> omega

/-- On a plain volume the lookups find every chain. -/
theorem Volume.found (hv : Volume fat d) (hc : Chain fat d start length clusters)
    (hl : Plain fat d clusters) : Found fat d clusters where
  placed c hmem := hv.offsetForCluster hl.bits (hc.inside c hmem).1 (hc.inside c hmem).2
  linked i h := by
    have hmem : clusters[i] ∈ clusters := List.getElem_mem _
    rw [hv.nextClusterInChain hl hmem (hc.inside _ hmem).1 (hc.inside _ hmem).2, hc.linked i h]
  ended hne := by
    have hmem := List.getLast_mem hne
    have hend := hc.ended hne
    have hlt := (hc.inside _ hmem).2
    have hcount := hv.totalClusters_le
    rw [IsEnd, if_pos hl.bits] at hend
    rw [hv.nextClusterInChain hl hmem (hc.inside _ hmem).1 hlt]
    omega

/-- The lookups lead through the chain. -/
theorem Found.cluster_eq (hf : Found fat d clusters) (hc : Chain fat d start length clusters)
    (i : ℕ) (hi : i < clusters.length) : cluster fat d start i = clusters[i] := by
  induction i with
  | zero => exact (hc.start_eq hi).symm
  | succ i ih => rw [cluster_succ, ih (by omega), hf.linked i hi]

/-- Behind the last cluster they do not go on to the next one. -/
theorem Found.cluster_length (hf : Found fat d clusters)
    (hc : Chain fat d start length clusters) (hpos : 0 < clusters.length) :
    cluster fat d start clusters.length ≠ cluster fat d start (clusters.length - 1) + 1 := by
  have hne : clusters ≠ [] := List.length_pos_iff.1 hpos
  have hlast : cluster fat d start (clusters.length - 1) = clusters.getLast hne := by
    rw [hf.cluster_eq hc _ (by omega), List.getLast_eq_getElem]
  have hnext : cluster fat d start clusters.length
      = nextClusterInChain fat d (cluster fat d start (clusters.length - 1)) := by
    rw [← cluster_succ, Nat.sub_add_cancel hpos]
  rw [hnext, hlast]
  exact hf.ended hne

end Agree

end Fat32
end LittleKernel
