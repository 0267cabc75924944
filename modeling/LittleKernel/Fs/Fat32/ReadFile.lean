/-
# Reading a FAT file

`lib/fs/fat32/file.c`: `fat32_read_file`.

The read takes the whole file, from its first byte to its last, and stores it at the buffer:
`len` is not looked at, and `offset` only to refuse what is behind the first cluster.  It moves
the clusters that follow one another in one transfer; `runOf` is the inner loop that looks the
chain ahead, `readRounds` the outer one.

`ReadsFile` is what a read is for; `ReadsWell` says when this one does it.
-/

import LittleKernel.Fs.Fat32.Chain

namespace LittleKernel
namespace Fat32

open Memory Word

/-- The fields of `fat_file_t` that a read looks at. -/
structure FatFile where
  startCluster : ℕ
  length : ℕ

/-- A value as an `int`. -/
def intOf (x : ℤ) : ℤ := (x + 2 ^ 31) % 2 ^ 32 - 2 ^ 31

section Model

variable (fat : FatFs) (d : Device)

/-- The inner loop: the cluster behind the run and the bytes of the run. -/
def runOf : ℕ → ℕ → ℕ → Option (ℕ × ℕ)
  | 0, _, _ => none
  | fuel + 1, cluster, toRead =>
    let nextCluster := nextClusterInChain fat d cluster
    if nextCluster = u32 (cluster + 1) then
      runOf fuel nextCluster (u32 (toRead + fat.bytesPerCluster))
    else some (nextCluster, toRead)

/-- The outer loop: the result and the memory at the buffer. -/
def readRounds (length : ℕ) : ℕ → ℕ → ℕ → (ℕ → UInt8) → Option (ℤ × (ℕ → UInt8))
  | 0, _, _, _ => none
  | fuel + 1, cluster, amountRead, mem => do
      let lbaAddr := offsetForCluster fat cluster
      let (cluster, run) ← runOf fat d fuel cluster fat.bytesPerCluster
      let toRead := min (sub32 length amountRead) run
      let r := d.bioRead mem amountRead lbaAddr toRead
      let err := intOf r.1
      if err < 0 then some (err, r.2)
      else
        let amountRead := u32 (amountRead + toRead)
        if amountRead < length then
          if cluster = endOfChain then some (amountRead, r.2)
          else readRounds length fuel cluster amountRead r.2
        else some (amountRead, r.2)

/-- `fat32_read_file`. -/
def fat32ReadFile (fuel : ℕ) (file : FatFile) (mem : ℕ → UInt8) (offset : ℤ) (_len : ℕ) :
    Option (ℤ × (ℕ → UInt8)) :=
  if offset ≤ fat.bytesPerCluster then
    readRounds fat d file.length fuel file.startCluster 0 mem
  else some (-1, mem)

/-! ### What a read is for -/

/-- How many bytes there are from `offset` on, up to `len` of them. -/
def wanted (length offset len : ℕ) : ℕ := min (offset + len) length - offset

/-- **The read returns, and does what a read is for.**  On a well-formed volume it is an error
or stores the bytes of the file from `offset` on; either way nothing behind `len` bytes is
written. -/
def ReadsFile (file : FatFile) (offset : ℤ) (len : ℕ) : Prop :=
  ∀ mem, ∃ fuel ret mem', fat32ReadFile fat d fuel file mem offset len = some (ret, mem') ∧
    (Volume fat d → ∀ clusters, Chain fat d file.startCluster file.length clusters →
      (∀ i, len ≤ i → mem' i = mem i) ∧
      (ret < 0 ∨ 0 ≤ offset ∧ mem' = copy mem 0 (fileByte fat d clusters) offset.toNat
        (wanted file.length offset.toNat len)))

/-- Wherever the chain is at when it is read on, fewer clusters follow one another than have
2^32 bytes. -/
def ShortRuns (file : FatFile) : Prop :=
  ∀ i, i * fat.bytesPerCluster < file.length ∨ i = 0 →
    ∃ k, k + 1 < 2 ^ 32 / fat.bytesPerCluster ∧
      cluster fat d file.startCluster (i + k + 1)
        ≠ u32 (cluster fat d file.startCluster (i + k) + 1)

/-- The transfers of a file succeed, and each has less than 2^31 bytes. -/
def Working (file : FatFile) : Prop :=
  file.length < 2 ^ 31 ∧ ∀ offset n, d.readError offset n = none

/-- **When the read does what a read is for**: it is refused, or the runs are short, and on a
well-formed volume the file is empty, or the lookups find its clusters and all of it is asked
for. -/
def ReadsWell (file : FatFile) (offset : ℤ) (len : ℕ) : Prop :=
  (fat.bytesPerCluster : ℤ) < offset ∨
    ShortRuns fat d file ∧
      (Volume fat d → ∀ clusters, Chain fat d file.startCluster file.length clusters →
        0 ≤ offset ∧ file.length = 0 ∨
          Found fat d clusters ∧ offset = 0 ∧ file.length ≤ len)

end Model

section Proofs

variable {fat : FatFs} {d : Device} {file : FatFile} {start : ℕ}

/-! ### More fuel -/

theorem runOf_mono {fuel fuel' c t : ℕ} {r : ℕ × ℕ} (hle : fuel ≤ fuel')
    (h : runOf fat d fuel c t = some r) : runOf fat d fuel' c t = some r := by
  induction fuel generalizing fuel' c t with
  | zero => simp [runOf] at h
  | succ fuel ih =>
    obtain ⟨k, rfl⟩ := Nat.exists_eq_add_of_le' (Nat.lt_of_lt_of_le (Nat.succ_pos fuel) hle)
    rw [runOf] at h ⊢
    split_ifs at h ⊢ with hc
    · exact ih (by omega) h
    · exact h

theorem readRounds_mono {fuel fuel' length c amount : ℕ} {mem : ℕ → UInt8} {r : ℤ × (ℕ → UInt8)}
    (hle : fuel ≤ fuel') (h : readRounds fat d length fuel c amount mem = some r) :
    readRounds fat d length fuel' c amount mem = some r := by
  induction fuel generalizing fuel' c amount mem with
  | zero => simp [readRounds] at h
  | succ fuel ih =>
    obtain ⟨k, rfl⟩ := Nat.exists_eq_add_of_le' (Nat.lt_of_lt_of_le (Nat.succ_pos fuel) hle)
    rw [readRounds] at h ⊢
    cases hrun : runOf fat d fuel c fat.bytesPerCluster with
    | none => simp [hrun] at h
    | some x =>
      rw [hrun] at h
      rw [runOf_mono (by omega) hrun]
      simp only [Option.bind_eq_bind, Option.bind_some] at h ⊢
      split_ifs at h ⊢
      · exact h
      · exact h
      · exact ih (by omega) h
      · exact h

variable {offset : ℤ}

/-- All runs that return agree. -/
theorem fat32ReadFile_unique {fuel fuel' : ℕ} {mem : ℕ → UInt8} {len : ℕ}
    {r r' : ℤ × (ℕ → UInt8)} (h : fat32ReadFile fat d fuel file mem offset len = some r)
    (h' : fat32ReadFile fat d fuel' file mem offset len = some r') : r = r' := by
  rw [fat32ReadFile] at h h'
  split_ifs at h h'
  · have h₁ := readRounds_mono (Nat.le_max_left fuel fuel') h
    have h₂ := readRounds_mono (Nat.le_max_right fuel fuel') h'
    exact Option.some.inj (h₁.symm.trans h₂)
  · exact Option.some.inj (h.symm.trans h')

/-! ### One round -/

/-- The inner loop over `k + 1` clusters that follow one another. -/
theorem runOf_consecutive (k i t fuel : ℕ)
    (hrun : ∀ j < k, cluster fat d start (i + j + 1) = u32 (cluster fat d start (i + j) + 1))
    (hend : cluster fat d start (i + k + 1) ≠ u32 (cluster fat d start (i + k) + 1))
    (ht : t + k * fat.bytesPerCluster < 2 ^ 32) (hfuel : k < fuel) :
    runOf fat d fuel (cluster fat d start i) t
      = some (cluster fat d start (i + k + 1), t + k * fat.bytesPerCluster) := by
  induction k generalizing i t fuel with
  | zero =>
    obtain ⟨fuel, rfl⟩ := Nat.exists_eq_add_of_le' hfuel
    simp only [Nat.add_zero, cluster_succ] at hend
    rw [runOf, if_neg hend, cluster_succ]
    simp
  | succ k ih =>
    obtain ⟨fuel, rfl⟩ := Nat.exists_eq_add_of_le' (Nat.lt_of_lt_of_le (Nat.succ_pos k) hfuel.le)
    rw [Nat.add_mul, Nat.one_mul] at ht
    have hstep := hrun 0 (Nat.succ_pos k)
    simp only [Nat.add_zero, cluster_succ] at hstep
    have hnext := ih (i + 1) (t + fat.bytesPerCluster) fuel
      (fun j hj => by
        have := hrun (j + 1) (by omega)
        rwa [show i + (j + 1) = i + 1 + j by omega] at this)
      (by rwa [show i + 1 + k = i + (k + 1) by omega]) (by omega) (by omega)
    rw [runOf, if_pos hstep, u32_of_lt (by omega), ← cluster_succ, hnext,
      show i + 1 + k = i + (k + 1) by omega, Nat.add_mul, Nat.one_mul]
    congr 2
    omega

/-- A run from cluster `i` of the chain on: its `m` clusters, and what the inner loop makes of
it. -/
structure Run (fat : FatFs) (d : Device) (start i m : ℕ) : Prop where
  pos : 0 < m
  short : m * fat.bytesPerCluster < 2 ^ 32
  consecutive : ∀ k, k + 1 < m →
    cluster fat d start (i + k + 1) = u32 (cluster fat d start (i + k) + 1)
  runOf_eq : ∀ fuel, m ≤ fuel → runOf fat d fuel (cluster fat d start i) fat.bytesPerCluster
    = some (cluster fat d start (i + m), m * fat.bytesPerCluster)

theorem ShortRuns.run (hs : ShortRuns fat d file) (hpos : 0 < fat.bytesPerCluster) {i : ℕ}
    (hi : i * fat.bytesPerCluster < file.length ∨ i = 0) :
    ∃ m, Run fat d file.startCluster i m := by
  have hex := hs i hi
  classical
  obtain ⟨hk, hend⟩ := Nat.find_spec hex
  have hmin : ∀ j < Nat.find hex, cluster fat d file.startCluster (i + j + 1)
      = u32 (cluster fat d file.startCluster (i + j) + 1) := by
    intro j hj
    by_contra hne
    exact Nat.find_min hex hj ⟨by omega, hne⟩
  generalize Nat.find hex = k at *
  have hshort : (k + 1) * fat.bytesPerCluster < 2 ^ 32 :=
    (Nat.mul_lt_mul_of_pos_right hk hpos).trans_le (Nat.div_mul_le_self ..)
  rw [Nat.add_mul, Nat.one_mul] at hshort
  refine ⟨k + 1, Nat.succ_pos k, by rwa [Nat.add_mul, Nat.one_mul], fun j hj => hmin j (by omega),
    fun fuel hfuel => ?_⟩
  rw [runOf_consecutive k i fat.bytesPerCluster fuel hmin hend (by omega) (by omega), Nat.add_mul,
    Nat.one_mul, Nat.add_comm fat.bytesPerCluster]
  rfl

/-- **One round**, from cluster `i` of the chain on. -/
theorem readRounds_succ {i m : ℕ} (length fuel : ℕ) (hr : Run fat d start i m)
    (hlength : length < 2 ^ 32) (hi : i * fat.bytesPerCluster < length ∨ i = 0) (hfuel : m ≤ fuel)
    (mem : ℕ → UInt8) :
    readRounds fat d length (fuel + 1) (cluster fat d start i) (i * fat.bytesPerCluster) mem
      = (let r := d.bioRead mem (i * fat.bytesPerCluster)
          (offsetForCluster fat (cluster fat d start i))
          (min (length - i * fat.bytesPerCluster) (m * fat.bytesPerCluster))
        if intOf r.1 < 0 then some (intOf r.1, r.2)
        else if (i + m) * fat.bytesPerCluster < length then
          if cluster fat d start (i + m) = endOfChain then
            some (((i + m) * fat.bytesPerCluster : ℕ), r.2)
          else readRounds fat d length fuel (cluster fat d start (i + m))
            ((i + m) * fat.bytesPerCluster) r.2
        else some ((length : ℕ), r.2)) := by
  have hle : i * fat.bytesPerCluster ≤ length := by
    rcases hi with hi | rfl
    · exact hi.le
    · rw [Nat.zero_mul]
      exact Nat.zero_le _
  have hsub : sub32 length (i * fat.bytesPerCluster) = length - i * fat.bytesPerCluster :=
    sub32_of_le hlength hle
  have hadd : (i + m) * fat.bytesPerCluster
      = i * fat.bytesPerCluster + m * fat.bytesPerCluster := Nat.add_mul ..
  have hamount : u32 (i * fat.bytesPerCluster +
      min (length - i * fat.bytesPerCluster) (m * fat.bytesPerCluster))
      = min length ((i + m) * fat.bytesPerCluster) := by
    rw [u32_of_lt (by omega)]
    omega
  rw [readRounds, hr.runOf_eq fuel hfuel]
  simp only [Option.bind_eq_bind, Option.bind_some, hsub, hamount]
  by_cases hlt : (i + m) * fat.bytesPerCluster < length
  · simp only [Nat.min_eq_right hlt.le, if_pos hlt]
  · simp only [Nat.min_eq_left (Nat.not_lt.1 hlt), if_neg (lt_irrefl length), if_neg hlt]

/-- An error stays one as an `int`, and so does a count below 2^31. -/
theorem intOf_neg (e : Fin (2 ^ 31)) : intOf (Int.negSucc e) < 0 := by
  have := e.isLt
  rw [intOf]
  omega

theorem intOf_count {n : ℕ} (hn : n < 2 ^ 31) : intOf n = n := by
  rw [intOf]
  omega

/-- **The read returns**, and writes no more than the file is long. -/
theorem readRounds_returns (hpos : 0 < fat.bytesPerCluster) (hlength : file.length < 2 ^ 32)
    (hs : ShortRuns fat d file) (i : ℕ)
    (hi : i * fat.bytesPerCluster < file.length ∨ i = 0) (mem : ℕ → UInt8) :
    ∃ fuel ret mem', readRounds fat d file.length fuel (cluster fat d file.startCluster i)
        (i * fat.bytesPerCluster) mem = some (ret, mem') ∧
      ∀ x, file.length ≤ x → mem' x = mem x := by
  obtain ⟨k, hk⟩ : ∃ k, file.length - i * fat.bytesPerCluster < k := ⟨_, Nat.lt_succ_self _⟩
  -- what is left to read gets less with every round
  induction k generalizing i mem with
  | zero => omega
  | succ k ih =>
    obtain ⟨m, hr⟩ := hs.run hpos hi
    have hround := fun fuel hfuel => readRounds_succ _ fuel hr hlength hi hfuel mem
    have hle : i * fat.bytesPerCluster ≤ file.length := by
      rcases hi with hi | rfl
      · exact hi.le
      · omega
    have hframe : ∀ x, file.length ≤ x → (d.bioRead mem (i * fat.bytesPerCluster)
        (offsetForCluster fat (cluster fat d file.startCluster i))
        (min (file.length - i * fat.bytesPerCluster) (m * fat.bytesPerCluster))).2 x = mem x :=
      fun x hx => d.bioRead_frame _ _ _ _ (.inr (by omega))
    generalize d.bioRead mem (i * fat.bytesPerCluster)
      (offsetForCluster fat (cluster fat d file.startCluster i))
      (min (file.length - i * fat.bytesPerCluster) (m * fat.bytesPerCluster)) = r at *
    by_cases herr : intOf r.1 < 0
    · refine ⟨m + 1, intOf r.1, r.2, ?_, hframe⟩
      rw [hround m le_rfl]
      exact if_pos herr
    by_cases hlt : (i + m) * fat.bytesPerCluster < file.length
    · by_cases hend : cluster fat d file.startCluster (i + m) = endOfChain
      · refine ⟨m + 1, ((i + m) * fat.bytesPerCluster : ℕ), r.2, ?_, hframe⟩
        rw [hround m le_rfl]
        simp only [if_neg herr, if_pos hlt, if_pos hend]
      · have hadd : (i + m) * fat.bytesPerCluster
            = i * fat.bytesPerCluster + m * fat.bytesPerCluster := Nat.add_mul ..
        have hstep : 0 < m * fat.bytesPerCluster := Nat.mul_pos hr.pos hpos
        obtain ⟨fuel, ret, mem', hrest, hframe'⟩ := ih (i + m) (.inl hlt) r.2 (by omega)
        refine ⟨max m fuel + 1, ret, mem', ?_, fun x hx => (hframe' x hx).trans (hframe x hx)⟩
        rw [hround _ (Nat.le_max_left ..)]
        simp only [if_neg herr, if_pos hlt, if_neg hend]
        exact readRounds_mono (Nat.le_max_right ..) hrest
    · refine ⟨m + 1, (file.length : ℕ), r.2, ?_, hframe⟩
      rw [hround m le_rfl]
      simp only [if_neg herr, if_neg hlt]

/-! ### On a volume whose clusters are found -/

variable {clusters : List ℕ}

/-- A run stays inside the chain, and its clusters follow one another. -/
theorem Run.inside (hv : Volume fat d) (hf : Found fat d clusters) {length i m : ℕ}
    (hc : Chain fat d start length clusters) (hr : Run fat d start i m) (hi : i < clusters.length) :
    i + m ≤ clusters.length ∧ ∀ k < m, cluster fat d start (i + k) = cluster fat d start i + k := by
  have hcount := hv.totalClusters_le
  have hlt : ∀ j < clusters.length, u32 (cluster fat d start j + 1) = cluster fat d start j + 1 := by
    intro j hj
    have := (hc.inside _ (List.getElem_mem hj)).2
    rw [← hf.cluster_eq hc j hj] at this
    exact u32_of_lt (by omega)
  have hfit : i + m ≤ clusters.length := by
    by_contra hmore
    have hlast := hr.consecutive (clusters.length - 1 - i) (by omega)
    rw [show i + (clusters.length - 1 - i) = clusters.length - 1 by omega,
      hlt _ (by omega), Nat.sub_add_cancel (by omega)] at hlast
    exact hf.cluster_length hc (by omega) hlast
  refine ⟨hfit, fun k hk => ?_⟩
  induction k with
  | zero => rfl
  | succ k ih =>
    rw [← Nat.add_assoc, hr.consecutive k hk, hlt _ (by omega), ih (by omega)]
    omega

/-- **The transfer of a run** fails or stores the bytes of the file that are next. -/
theorem Run.bioRead (hv : Volume fat d) (hf : Found fat d clusters) {length i m : ℕ}
    (hc : Chain fat d start length clusters) (hr : Run fat d start i m) (hi : i < clusters.length)
    (mem : ℕ → UInt8) {n : ℕ} (hn : n ≤ m * fat.bytesPerCluster) (hpos : 0 < n) :
    (∃ e junk, d.readError (offsetForCluster fat (cluster fat d start i)) n = some (e, junk) ∧
        d.bioRead mem (i * fat.bytesPerCluster) (offsetForCluster fat (cluster fat d start i)) n
          = (Int.negSucc e, copy mem (i * fat.bytesPerCluster) junk 0 n)) ∨
      d.bioRead mem (i * fat.bytesPerCluster) (offsetForCluster fat (cluster fat d start i)) n
        = ((n : ℤ), copy mem (i * fat.bytesPerCluster) (fileByte fat d clusters)
            (i * fat.bytesPerCluster) n) := by
  obtain ⟨hfit, hcons⟩ := hr.inside hv hf hc hi
  have hb := hv.toMounted.bytesPerCluster_pos
  have hplace : ∀ k (hk : k < m), dataPlace fat (clusters.getD (i + k) 0)
      = dataPlace fat (cluster fat d start i) + k * fat.bytesPerCluster ∧
      cluster fat d start i + k < fat.totalClusters + 2 := by
    intro k hk
    have hlt : i + k < clusters.length := by omega
    have hi2 := (hc.inside _ (List.getElem_mem hi)).1
    rw [← hf.cluster_eq hc i hi] at hi2
    have hin := (hc.inside _ (List.getElem_mem hlt)).2
    rw [← hf.cluster_eq hc _ hlt, hcons k hk] at hin
    refine ⟨?_, hin⟩
    rw [List.getD_eq_getElem _ _ hlt, ← hf.cluster_eq hc _ hlt, hcons k hk, dataPlace, dataPlace,
      show cluster fat d start i + k - 2 = cluster fat d start i - 2 + k by omega,
      hv.bytesPerCluster]
    ring
  have hi2 := (hc.inside _ (List.getElem_mem hi))
  rw [← hf.cluster_eq hc i hi] at hi2
  have hoff := hf.placed _ (List.getElem_mem hi)
  rw [← hf.cluster_eq hc i hi] at hoff
  rw [hoff]
  -- all of it is on the device
  have hin : dataPlace fat (cluster fat d start i) + n ≤ d.totalSize := by
    have hlast := (hplace (m - 1) (by have := hr.pos; omega)).2
    have hmul : (cluster fat d start i - 2 + m) * fat.sectorsPerCluster
        ≤ fat.totalClusters * fat.sectorsPerCluster := Nat.mul_le_mul_right _ (by omega)
    have hbytes : (fat.dataStart + (cluster fat d start i - 2 + m) * fat.sectorsPerCluster)
        * fat.bytesPerSector ≤ (fat.dataStart + fat.totalClusters * fat.sectorsPerCluster)
        * fat.bytesPerSector := Nat.mul_le_mul_right _ (by omega)
    have hsize := hv.size
    have hsplit : (fat.dataStart + (cluster fat d start i - 2 + m) * fat.sectorsPerCluster)
        * fat.bytesPerSector
        = (fat.dataStart + (cluster fat d start i - 2) * fat.sectorsPerCluster) * fat.bytesPerSector
          + m * fat.bytesPerCluster := by
      rw [hv.bytesPerCluster]
      ring
    rw [dataPlace]
    omega
  have htrim : d.trimRange (dataPlace fat (cluster fat d start i)) n = n := by
    rw [Device.trimRange, if_neg (by omega), Nat.min_eq_left (by omega)]
  rw [Device.bioRead, htrim, if_neg hpos.ne']
  cases herr : d.readError (dataPlace fat (cluster fat d start i)) n with
  | some x => exact .inl ⟨x.1, x.2, rfl, rfl⟩
  | none =>
    refine .inr (congrArg (Prod.mk (n : ℤ)) (copy_congr fun y hy => ?_))
    have hk : y / fat.bytesPerCluster < m := Nat.div_lt_of_lt_mul (by
      rw [Nat.mul_comm]
      omega)
    have hdiv : (i * fat.bytesPerCluster + y) / fat.bytesPerCluster = i + y / fat.bytesPerCluster := by
      rw [Nat.mul_comm, Nat.mul_add_div hb]
    have hmod : (i * fat.bytesPerCluster + y) % fat.bytesPerCluster = y % fat.bytesPerCluster := by
      rw [Nat.mul_comm, Nat.mul_add_mod]
    have hdm := Nat.div_add_mod' y fat.bytesPerCluster
    rw [fileByte, hdiv, hmod, (hplace _ hk).1]
    congr 1
    omega

/-- How far the clusters go, and the last of them is needed. -/
theorem Chain.more {length i : ℕ} (hc : Chain fat d start length clusters)
    (hi : i ≤ clusters.length) :
    i * fat.bytesPerCluster < length ↔ i < clusters.length := by
  have henough := hc.enough
  constructor
  · intro h
    by_contra hge
    rw [show i = clusters.length by omega] at h
    omega
  · intro h
    have hneeded := hc.needed (List.length_pos_iff.1 (by omega))
    have hmul : i * fat.bytesPerCluster ≤ (clusters.length - 1) * fat.bytesPerCluster :=
      Nat.mul_le_mul_right _ (by omega)
    omega

/-- **The rest of a read**, from a run on: an error, which a device that works does not give, or
the rest of the file. -/
theorem readRounds_exact (hv : Volume fat d) (hf : Found fat d clusters)
    (hc : Chain fat d file.startCluster file.length clusters) (hs : ShortRuns fat d file) (i : ℕ)
    (hi : i < clusters.length) (mem : ℕ → UInt8) :
    ∃ fuel ret mem', readRounds fat d file.length fuel (cluster fat d file.startCluster i)
        (i * fat.bytesPerCluster) mem = some (ret, mem') ∧
      (ret < 0 ∧ ¬ Working d file ∨ ret = file.length ∧
        mem' = copy mem (i * fat.bytesPerCluster) (fileByte fat d clusters)
          (i * fat.bytesPerCluster) (file.length - i * fat.bytesPerCluster)) := by
  have hb := hv.toMounted.bytesPerCluster_pos
  obtain ⟨k, hk⟩ : ∃ k, clusters.length - i < k := ⟨_, Nat.lt_succ_self _⟩
  induction k generalizing i mem with
  | zero => omega
  | succ k ih =>
    have hlt := (hc.more hi.le).2 hi
    obtain ⟨m, hr⟩ := hs.run hb (.inl hlt)
    have hround := fun fuel hfuel =>
      readRounds_succ _ fuel hr hc.length_lt (.inl hlt) hfuel mem
    obtain ⟨hfit, -⟩ := hr.inside hv hf hc hi
    have hstep : 0 < m * fat.bytesPerCluster := Nat.mul_pos hr.pos hb
    have hadd : (i + m) * fat.bytesPerCluster
        = i * fat.bytesPerCluster + m * fat.bytesPerCluster := Nat.add_mul ..
    have hread := hr.bioRead hv hf hc hi mem
      (n := min (file.length - i * fat.bytesPerCluster) (m * fat.bytesPerCluster))
      (Nat.min_le_right ..) (by omega)
    generalize hn : min (file.length - i * fat.bytesPerCluster) (m * fat.bytesPerCluster) = n at *
    rcases hread with ⟨e, junk, hfail, hread⟩ | hread
    · -- the device fails
      refine ⟨m + 1, intOf (Int.negSucc e), copy mem (i * fat.bytesPerCluster) junk 0 n, ?_,
        .inl ⟨intOf_neg e, fun hw => ?_⟩⟩
      · rw [hround m le_rfl, hread]
        exact if_pos (intOf_neg e)
      · rw [hw.2] at hfail
        exact nomatch hfail
    by_cases hneg : intOf (n : ℤ) < 0
    · -- the count of the transfer is not an `int`
      refine ⟨m + 1, intOf n, copy mem (i * fat.bytesPerCluster) (fileByte fat d clusters)
        (i * fat.bytesPerCluster) n, ?_, .inl ⟨hneg, fun hw => ?_⟩⟩
      · rw [hround m le_rfl, hread]
        exact if_pos hneg
      · have := hw.1
        rw [intOf_count (by omega)] at hneg
        omega
    by_cases hmore : (i + m) * fat.bytesPerCluster < file.length
    · have hi' := (hc.more hfit).1 hmore
      have hnot : cluster fat d file.startCluster (i + m) ≠ endOfChain := by
        have hin := (hc.inside _ (List.getElem_mem hi')).2
        rw [hf.cluster_eq hc _ hi', endOfChain]
        have hcount := hv.totalClusters_le
        omega
      have hne : n = m * fat.bytesPerCluster := by omega
      obtain ⟨fuel, ret, mem', hrest, hres⟩ := ih (i + m) hi'
        (copy mem (i * fat.bytesPerCluster) (fileByte fat d clusters) (i * fat.bytesPerCluster) n)
        (by have := hr.pos; omega)
      refine ⟨max m fuel + 1, ret, mem', ?_, ?_⟩
      · rw [hround _ (Nat.le_max_left ..), hread]
        simp only [if_neg hneg, if_pos hmore, if_neg hnot]
        exact readRounds_mono (Nat.le_max_right ..) hrest
      · refine hres.imp_right fun ⟨hret, hmem⟩ => ⟨hret, ?_⟩
        rw [hmem, hadd, ← hne, copy_append]
        congr 1
        omega
    · have hne : n = file.length - i * fat.bytesPerCluster := by omega
      refine ⟨m + 1, (file.length : ℕ), _, ?_, .inr ⟨rfl, rfl⟩⟩
      rw [hround m le_rfl, hread]
      simp only [if_neg hneg, if_neg hmore]
      rw [hne]

theorem readRounds_empty (hb : 0 < fat.bytesPerCluster) (hs : ShortRuns fat d file)
    (h0 : file.length = 0) (mem : ℕ → UInt8) :
    ∃ fuel, readRounds fat d file.length fuel file.startCluster 0 mem = some (0, mem) := by
  obtain ⟨m, hr⟩ := hs.run hb (.inr rfl)
  have hround := readRounds_succ file.length m hr (by omega) (.inr rfl) le_rfl mem
  have hread : ∀ x y, d.bioRead mem x y 0 = (0, mem) := by
    intro x y
    rw [Device.bioRead, if_pos]
    rw [Device.trimRange]
    split_ifs <;> simp
  refine ⟨m + 1, ?_⟩
  rw [Nat.zero_mul, h0] at hround
  rw [h0]
  refine hround.trans ?_
  rw [Nat.zero_sub, Nat.zero_min, hread]
  rfl

/-! ### When a read is right -/

/-- The whole of a file whose clusters are found. -/
theorem fat32ReadFile_whole (hv : Volume fat d) (hf : Found fat d clusters)
    (hc : Chain fat d file.startCluster file.length clusters) (hs : ShortRuns fat d file)
    (hoff : offset ≤ fat.bytesPerCluster) (len : ℕ) (mem : ℕ → UInt8) :
    ∃ fuel ret mem', fat32ReadFile fat d fuel file mem offset len = some (ret, mem') ∧
      (ret < 0 ∧ ¬ Working d file ∨ ret = file.length ∧
        mem' = copy mem 0 (fileByte fat d clusters) 0 file.length) := by
  have hb := hv.toMounted.bytesPerCluster_pos
  rcases Nat.eq_zero_or_pos file.length with h0 | h0
  · obtain ⟨fuel, hread⟩ := readRounds_empty hb hs h0 mem
    refine ⟨fuel, 0, mem, ?_, .inr ?_⟩
    · rw [fat32ReadFile, if_pos hoff, hread]
    · rw [h0, copy_zero]
      exact ⟨rfl, rfl⟩
  · have hpos := (hc.more (Nat.zero_le _)).1 (by omega)
    obtain ⟨fuel, ret, mem', hread, hres⟩ := readRounds_exact hv hf hc hs 0 hpos mem
    rw [Nat.zero_mul, Nat.sub_zero] at hres
    rw [Nat.zero_mul] at hread
    refine ⟨fuel, ret, mem', ?_, hres⟩
    rw [fat32ReadFile, if_pos hoff]
    exact hread

theorem readsFile_of_readsWell (hm : Mounted fat) (hlength : file.length < 2 ^ 32)
    {len : ℕ} (h : ReadsWell fat d file offset len) : ReadsFile fat d file offset len := by
  intro mem
  rcases h with hfar | ⟨hs, hwell⟩
  · refine ⟨0, -1, mem, ?_, fun _ _ _ => ⟨fun _ _ => rfl, .inl (by decide)⟩⟩
    rw [fat32ReadFile, if_neg (by omega)]
  by_cases hfar : offset ≤ fat.bytesPerCluster
  · obtain ⟨fuel, ret, mem', hread, hframe⟩ :=
      readRounds_returns hm.bytesPerCluster_pos hlength hs 0 (.inr rfl) mem
    rw [Nat.zero_mul] at hread
    have hfile : fat32ReadFile fat d fuel file mem offset len = some (ret, mem') := by
      rw [fat32ReadFile, if_pos hfar]
      exact hread
    refine ⟨fuel, ret, mem', hfile, fun hv clusters hc => ?_⟩
    rcases hwell hv clusters hc with ⟨hoff, h0⟩ | ⟨hf, rfl, hlen⟩
    · -- an empty file
      obtain ⟨fuel', hempty⟩ := readRounds_empty hm.bytesPerCluster_pos hs h0 mem
      have hfile' : fat32ReadFile fat d fuel' file mem offset len = some (0, mem) := by
        rw [fat32ReadFile, if_pos hfar, hempty]
      obtain ⟨rfl, rfl⟩ := Prod.mk.inj (fat32ReadFile_unique hfile hfile')
      have hw : wanted file.length offset.toNat len = 0 := by
        rw [wanted]
        omega
      exact ⟨fun _ _ => rfl, .inr ⟨hoff, by rw [hw, copy_zero]⟩⟩
    · refine ⟨fun i hi => hframe i (by omega), ?_⟩
      obtain ⟨fuel', ret', mem'', hfile', hres⟩ := fat32ReadFile_whole hv hf hc hs hfar len mem
      obtain ⟨rfl, rfl⟩ := Prod.mk.inj (fat32ReadFile_unique hfile hfile')
      have hw : wanted file.length (0 : ℤ).toNat len = file.length := by
        rw [wanted]
        simp only [Int.toNat_zero]
        omega
      refine hres.imp And.left fun ⟨_, hmem⟩ => ⟨le_rfl, ?_⟩
      rw [hw]
      exact hmem
  · refine ⟨0, -1, mem, ?_, fun _ _ _ => ⟨fun _ _ => rfl, .inl (by decide)⟩⟩
    rw [fat32ReadFile, if_neg hfar]

/-- On a device that works, a read that does what a read is for was refused or is of the whole
file. -/
theorem readsWell_of_readsFile (hv : Volume fat d) (hf : Found fat d clusters)
    (hc : Chain fat d file.startCluster file.length clusters) (hs : ShortRuns fat d file)
    (hw : Working d file) {len : ℕ} (h : ReadsFile fat d file offset len) :
    (fat.bytesPerCluster : ℤ) < offset ∨ 0 ≤ offset ∧ file.length = 0 ∨
      offset = 0 ∧ file.length ≤ len := by
  by_cases hfar : offset ≤ fat.bytesPerCluster
  · refine .inr ?_
    -- memory that is unlike the file where the request ends
    obtain ⟨fuel, ret, mem', hread, hex⟩ := h fun _ =>
      fileByte fat d clusters (wanted file.length offset.toNat len) + 1
    obtain ⟨fuel', ret', mem'', hread', hres⟩ := fat32ReadFile_whole hv hf hc hs hfar len fun _ =>
      fileByte fat d clusters (wanted file.length offset.toNat len) + 1
    obtain ⟨rfl, rfl⟩ := Prod.mk.inj (fat32ReadFile_unique hread hread')
    obtain ⟨hret, hmem⟩ := hres.resolve_left fun hneg => hneg.2 hw
    obtain ⟨hoff, hmem'⟩ := (hex hv clusters hc).2.resolve_left (by omega)
    have hle : wanted file.length offset.toNat len ≤ file.length - offset.toNat := by
      rw [wanted]
      omega
    have hall : file.length ≤ wanted file.length offset.toNat len := by
      by_contra hlt
      have hat := congrFun (hmem.symm.trans hmem') (wanted file.length offset.toNat len)
      rw [copy_of_mem (Nat.zero_le _) (by omega), copy_of_not_mem (by omega), Nat.zero_add,
        Nat.sub_zero] at hat
      simp at hat
    rw [wanted] at hall
    omega
  · exact .inl (by omega)

theorem Chain.unique {length : ℕ} {clusters' : List ℕ}
    (hc : Chain fat d start length clusters) (hc' : Chain fat d start length clusters') :
    clusters = clusters' := by
  have hle : ∀ {k l : List ℕ}, Chain fat d start length k → Chain fat d start length l →
      k.length ≤ l.length := by
    intro k l hk hl
    by_contra hlt
    have hmore := (hk.more (i := l.length) (by omega)).2 (by omega)
    have := hl.enough
    omega
  refine List.ext_getElem (Nat.le_antisymm (hle hc hc') (hle hc' hc)) fun i hi hi' => ?_
  induction i with
  | zero => exact (hc.start_eq hi).trans (hc'.start_eq hi').symm
  | succ i ih => rw [← hc.linked i hi, ← hc'.linked i hi', ih (by omega) (by omega)]

/-- **When the read does what a read is for.**  It does if it is refused, or if fewer clusters
than have 2^32 bytes ever follow one another and, on a well-formed volume, the file is empty or
its clusters are found and all of it is asked for.  And where the clusters are found, the runs
are short and the device works, it does so then only. -/
theorem fat32_read_file_meets (hm : Mounted fat) (file : FatFile) (hlength : file.length < 2 ^ 32)
    (offset : ℤ) (len : ℕ) :
    (ReadsWell fat d file offset len → ReadsFile fat d file offset len) ∧
      ∀ clusters, Volume fat d → Chain fat d file.startCluster file.length clusters →
        Found fat d clusters → ShortRuns fat d file → Working d file →
        (ReadsFile fat d file offset len ↔ ReadsWell fat d file offset len) := by
  refine ⟨readsFile_of_readsWell hm hlength, fun clusters hv hc hf hs hw =>
    ⟨fun h => ?_, readsFile_of_readsWell hm hlength⟩⟩
  refine (readsWell_of_readsFile hv hf hc hs hw h).imp_right fun hcall => ⟨hs, fun _ k hk => ?_⟩
  rw [hk.unique hc]
  exact hcall.imp_right fun hwhole => ⟨hf, hwhole⟩

end Proofs

/-! ### A file in two runs -/

/-- A FAT32 volume of 1000 clusters of one sector. -/
def smallFat : FatFs where
  lbaStart := 1024
  bytesPerSector := 512
  sectorsPerCluster := 1
  bytesPerCluster := 512
  reservedSectors := 32
  fatBits := 32
  fatCount := 2
  sectorsPerFat := 8
  rootEntries := 0
  dataStart := 48
  totalClusters := 1000
  rootCluster := 2

/-- A device whose first table leads from cluster 3 to 4, from there to 7, and ends. -/
def smallContents (i : ℕ) : UInt8 :=
  if 17420 ≤ i ∧ i < 17440 then
    [4, 0, 0, 0, 7, 0, 0, 0, 0, 0, 0, 0, 0, 0, 0, 0, 0xff, 0xff, 0xff, 0x0f].getD (i - 17420) 0
  else 0x41

def smallDevice : Device where
  totalSize := 537600
  contents := smallContents
  readError := fun _ _ => none
  getBlock b := some fun i => smallContents (b * 512 + i)

theorem smallVolume : Volume smallFat smallDevice where
  lbaStart := rfl
  sector := .inl rfl
  sectorsPerCluster := ⟨0, by decide, rfl⟩
  bytesPerCluster := rfl
  width := .inl (by decide)
  dataStart := rfl
  table := by decide
  copies := by decide
  sectors := by decide
  size := by decide
  blocks := by
    rintro b t ⟨⟩ - i -
    rfl

theorem smallEnd : IsEnd smallFat (fatEntry smallFat smallDevice 7) := by decide

/-- Two clusters and a part of a third. -/
theorem smallChain : Chain smallFat smallDevice 3 1300 [3, 4, 7] where
  start_eq _ := rfl
  inside := by decide
  linked i hi := by
    obtain rfl | rfl : i = 0 ∨ i = 1 := by
      simp only [List.length_cons, List.length_nil] at hi
      omega
    · exact (by decide : fatEntry smallFat smallDevice 3 = 4)
    · exact (by decide : fatEntry smallFat smallDevice 4 = 7)
  ended _ := smallEnd
  enough := by decide
  needed _ := by decide
  length_lt := by decide

theorem smallFound : Found smallFat smallDevice [3, 4, 7] :=
  smallVolume.found smallChain ⟨rfl, rfl, fun _ _ => ⟨_, rfl⟩, by decide⟩

theorem smallRuns : ShortRuns smallFat smallDevice ⟨3, 1300⟩ := by
  intro i hi
  have hb : smallFat.bytesPerCluster = 512 := rfl
  obtain rfl | rfl | rfl : i = 0 ∨ i = 1 ∨ i = 2 := by
    rw [hb] at hi
    simp only at hi
    omega
  · exact ⟨1, by decide, by decide⟩
  · exact ⟨0, by decide, by decide⟩
  · exact ⟨0, by decide, by decide⟩

/-- The whole file, which lies in two runs. -/
theorem fat32_read_file_meets_whole : ReadsFile smallFat smallDevice ⟨3, 1300⟩ 0 1300 :=
  (fat32_read_file_meets smallVolume.toMounted ⟨3, 1300⟩ (by decide) 0 1300).1
    (.inr ⟨smallRuns, fun _ k hk => by
      rw [hk.unique smallChain]
      exact .inr ⟨smallFound, rfl, le_rfl⟩⟩)

/-- A file of two bytes in the last cluster. -/
theorem lastChain : Chain smallFat smallDevice 7 2 [7] where
  start_eq _ := rfl
  inside := by decide
  linked i hi := by simp at hi
  ended _ := smallEnd
  enough := by decide
  needed _ := by decide
  length_lt := by decide

theorem lastRuns : ShortRuns smallFat smallDevice ⟨7, 2⟩ := by
  intro i hi
  have hb : smallFat.bytesPerCluster = 512 := rfl
  obtain rfl : i = 0 := by
    rw [hb] at hi
    simp only at hi
    omega
  exact ⟨0, by decide, by decide⟩

/-- **A read of one byte stores two.** -/
theorem fat32_read_file_overruns :
    ∃ (fat : FatFs) (d : Device) (file : FatFile) (clusters : List ℕ), Volume fat d ∧
      Chain fat d file.startCluster file.length clusters ∧ ¬ ReadsFile fat d file 0 1 := by
  refine ⟨smallFat, smallDevice, ⟨7, 2⟩, [7], smallVolume, lastChain, fun h => ?_⟩
  have hw : Working smallDevice ⟨7, 2⟩ := ⟨by decide, fun _ _ => rfl⟩
  have hf : Found smallFat smallDevice [7] :=
    smallVolume.found lastChain ⟨rfl, rfl, fun _ _ => ⟨_, rfl⟩, by decide⟩
  rcases readsWell_of_readsFile smallVolume hf lastChain lastRuns hw h with
    hfar | ⟨-, h0⟩ | ⟨-, hle⟩
  · exact absurd hfar (by decide)
  · exact absurd h0 (by decide)
  · exact absurd hle (by decide)

end Fat32
end LittleKernel
