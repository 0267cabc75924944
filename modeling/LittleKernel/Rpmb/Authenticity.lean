/-
# Authenticity of what is read

A response is authentic (`Authentic`) when the HMAC that the host computes over it
equals its MAC, its nonce is that of the request and its result code is 0.  Case 4 of
`ufs_rpmb_commands` compares the MACs but only prints the outcome, and
`rpmb_read_block`, unlike `read_write_counter`, does not look at the result code.  So a
response with the nonce of the request is taken whatever its MAC and result code
(`Forged`), and a response whose nonce is wrong has been copied by the time it is
refused, which matters for the persistent values, whose reading does not depend on
`table_init_state`.

`read_authenticity_iff` says for which responses `rpmb_read_block` and
`rpmb_load_boot_table` nevertheless take authentic blocks only.
-/

import LittleKernel.Rpmb.Blocks

namespace LittleKernel
namespace Rpmb

open Memory Bytes

/-- The response for the block at `addr` has the host's MAC, the nonce of the request and
the result code 0. -/
def Authentic (e : ReadEnv) (addr : ℕ) : Prop :=
  ∃ p, Arrives e addr p ∧ window (getRpmbHmac e.smc p.macInput).2 0 32 = p.wireMac ∧
    window p.nonce 0 16 = window (cmGetRandom e.random).2 0 16 ∧ p.result = 0

/-- The response for the block at `addr` has another MAC or another result code. -/
def Forged (e : ReadEnv) (addr : ℕ) : Prop :=
  ∃ p, Arrives e addr p ∧
    (window (getRpmbHmac e.smc p.macInput).2 0 32 ≠ p.wireMac ∨ p.result ≠ 0)

variable {addr : ℕ}

/-- Among the responses that pass the code's checks the authentic ones are those that are
not forged. -/
theorem Passes.authentic_iff {e : ReadEnv} (h : Passes e addr) :
    Authentic e addr ↔ ¬ Forged e addr := by
  obtain ⟨p, hp, hn, -⟩ := h
  constructor
  · rintro ⟨q, hq, hm, -, hr⟩ ⟨q', hq', hf⟩
    obtain rfl := hq.unique hq'
    exact hf.elim (fun h => h hm) fun h => h hr
  · intro hf
    refine ⟨p, hp, ?_, hn, ?_⟩
    · by_contra hm
      exact hf ⟨p, hp, .inl hm⟩
    · by_contra hr
      exact hf ⟨p, hp, .inr hr⟩

/-! ### Initialising the tables -/

/-- The five blocks of `rpmb_init_table` could be sent and were answered. -/
def InitSends (env : LoadEnv) : Prop :=
  (∃ q, Sends (env.init 0) addrBase initHeader 0 q) ∧
    (∀ i < 2, ∃ q, Sends (env.init (1 + i)) (addrBase + bootRiTableBlock + i) (fun _ => 0) 0 q) ∧
    ∀ i < 2, ∃ q, Sends (env.init (3 + i)) (addrBase + persistDataBlock + i) (fun _ => 0) 0 q

theorem zeroBlocks_two_fst {env : ℕ → WriteEnv} {dev : Device} :
    (zeroBlocks env 2 0 addr dev).1 = rvSuccess ↔
      ∀ i < 2, ∃ q, Sends (env i) (addr + i) (fun _ => 0) 0 q := by
  have htwo : (∀ i < 2, ∃ q, Sends (env i) (addr + i) (fun _ => 0) 0 q) ↔
      (∃ q, Sends (env 0) (addr + 0) (fun _ => 0) 0 q) ∧
        ∃ q, Sends (env 1) (addr + 1) (fun _ => 0) 0 q :=
    ⟨fun h => ⟨h 0 (by omega), h 1 (by omega)⟩, fun h i hi => by
      obtain rfl | rfl : i = 0 ∨ i = 1 := by omega
      · exact h.1
      · exact h.2⟩
  rw [htwo, ← rpmbWriteBlock_fst, ← rpmbWriteBlock_fst]
  simp only [zeroBlocks]
  split
  · rename_i h
    exact ⟨fun hs => absurd hs h, fun hs => absurd hs.1 h⟩
  · rename_i h
    split
    · rename_i h'
      exact ⟨fun hs => absurd hs h', fun hs => absurd hs.2 h'⟩
    · rename_i h'
      exact ⟨fun _ => ⟨not_not.1 h, not_not.1 h'⟩, fun _ => rfl⟩

variable {env : LoadEnv} {s : State}

theorem rpmbInitTable_fst :
    (rpmbInitTable env.init s).1 = rvSuccess ↔ InitSends env := by
  rw [InitSends, ← rpmbWriteBlock_fst, ← zeroBlocks_two_fst, ← zeroBlocks_two_fst]
  simp only [rpmbInitTable]
  split
  · rename_i h
    exact ⟨fun hs => absurd hs h, fun hs => absurd hs.1 h⟩
  · rename_i h
    split
    · rename_i h'
      exact ⟨fun hs => absurd hs h', fun hs => absurd hs.2.1 h'⟩
    · rename_i h'
      exact ⟨fun hs => ⟨not_not.1 h, not_not.1 h', hs⟩, fun hs => hs.2.2⟩

/-- Initialising changes the header and the lock state only. -/
theorem rpmbInitTable_mem (env : ℕ → WriteEnv) (s : State) :
    (rpmbInitTable env s).2.mem.persistentData = s.mem.persistentData ∧
      (rpmbInitTable env s).2.mem.rollbackIndex = s.mem.rollbackIndex ∧
      (rpmbInitTable env s).2.mem.provisionState = s.mem.provisionState := by
  simp only [rpmbInitTable]
  split
  · exact ⟨rfl, rfl, rfl⟩
  · split <;> exact ⟨rfl, rfl, rfl⟩

/-! ### Loading -/

/-- The header that came back starts with `BOOT_MAGIC`. -/
def HasMagic (env : LoadEnv) : Prop :=
  ∃ p, Arrives env.header addrBase p ∧ load32 p.data 0 = bootMagic

/-- The header passes, and if it has no magic number the tables could be initialised. -/
def HeaderPasses (env : LoadEnv) : Prop :=
  Passes env.header addrBase ∧ (HasMagic env ∨ InitSends env)

/-- The blocks of the rollback indexes pass. -/
def IndexPasses (env : LoadEnv) : Prop :=
  ∀ i < 2, Passes (env.ri i) (addrBase + bootRiTableBlock + i)

/-- The blocks of the persistent values pass. -/
def PersistPasses (env : LoadEnv) : Prop :=
  ∀ i < 2, Passes (env.persist i) (addrBase + persistDataBlock + i)

theorem Arrives.header_buf {e : ReadEnv} {p : Packet} (h : Arrives e addr p) :
    (rpmbReadBlock (fun _ => e) addr 1 (fun _ => 0) 0).2 = copy (fun _ => 0) 0 p.data 0 256 := by
  rw [rpmbReadBlock_one, h.readOne_eq]
  rfl

theorem load32_copy_block (buf d : ℕ → UInt8) {a : ℕ} (h : a + 4 ≤ 256) :
    load32 (copy buf 0 d 0 256) a = load32 d a :=
  load32_congr fun i _ hi => by rw [copy_of_mem (by omega) (by omega)]; simp

theorem rpmbRiCheckMagic_fst :
    (rpmbRiCheckMagic env s).1 = rvSuccess ↔ HeaderPasses env := by
  have hread := rpmbReadBlock_one env.header addrBase 0 fun _ => 0
  simp only [rpmbRiCheckMagic, HeaderPasses]
  split
  · rename_i h
    rw [hread] at h
    exact ⟨fun hs => absurd hs (by rw [hread]; exact h), fun hs => absurd (readOne_fst.2 hs.1) h⟩
  · rename_i h
    rw [not_not, hread] at h
    have hpass := readOne_fst.1 h
    obtain ⟨p, hp, -⟩ := hpass
    rw [hp.header_buf, load32_copy_block _ _ (by omega)]
    have hmagic : HasMagic env ↔ load32 p.data 0 = bootMagic := by
      constructor
      · rintro ⟨q, hq, hm⟩
        exact hp.unique hq ▸ hm
      · exact fun hm => ⟨p, hp, hm⟩
    rw [← rpmbInitTable_fst (s := s), hmagic]
    split
    · rename_i hm
      split
      · rename_i hi
        exact ⟨fun hs => absurd hs hi, fun hs => absurd (hs.2.resolve_left hm) hi⟩
      · rename_i hi
        exact ⟨fun _ => ⟨readOne_fst.1 h, .inr (not_not.1 hi)⟩, fun _ => rfl⟩
    · rename_i hm
      exact ⟨fun _ => ⟨readOne_fst.1 h, .inl (not_not.1 hm)⟩, fun _ => rfl⟩

/-- Checking the magic number leaves the two tables alone, and sets `table_init_state`
when it succeeds. -/
theorem rpmbRiCheckMagic_mem (env : LoadEnv) (s : State) :
    (rpmbRiCheckMagic env s).2.mem.persistentData = s.mem.persistentData ∧
      (rpmbRiCheckMagic env s).2.mem.rollbackIndex = s.mem.rollbackIndex ∧
      (rpmbRiCheckMagic env s).2.mem.provisionState = s.mem.provisionState ∧
      ((rpmbRiCheckMagic env s).1 = rvSuccess →
        (rpmbRiCheckMagic env s).2.mem.tableInitState = 1) := by
  simp only [rpmbRiCheckMagic]
  split
  · rename_i h
    exact ⟨rfl, rfl, rfl, fun hs => absurd hs h⟩
  · split
    · obtain ⟨h₁, h₂, h₃⟩ := rpmbInitTable_mem env.init s
      split
      · rename_i h
        exact ⟨h₁, h₂, h₃, fun hs => absurd hs h⟩
      · exact ⟨h₁, h₂, h₃, fun _ => rfl⟩
    · exact ⟨rfl, rfl, rfl, fun _ => rfl⟩

theorem loadTable_two_fst (env : ℕ → ReadEnv) (addr : ℕ) (table : ℕ → UInt8) :
    (loadTable env addr 2 0 table).1 = rvSuccess ↔ ∀ i < 2, Passes (env i) (addr + i) := by
  simp [loadTable_fst]

theorem rpmbLoadRollbackIndex_spec (env : LoadEnv) (s : State) :
    ((rpmbLoadRollbackIndex env s).1 = rvSuccess ↔ IndexPasses env) ∧
      (rpmbLoadRollbackIndex env s).2.mem.persistentData = s.mem.persistentData ∧
      ((rpmbLoadRollbackIndex env s).1 = rvSuccess →
        (rpmbLoadRollbackIndex env s).2.mem.tableInitState = s.mem.tableInitState) := by
  rw [IndexPasses, ← loadTable_two_fst _ _ s.mem.rollbackIndex]
  by_cases h : (loadTable env.ri (addrBase + bootRiTableBlock) 2 0 s.mem.rollbackIndex).1 = rvSuccess
  · simp [rpmbLoadRollbackIndex, bootRiTableBlockCnt, h]
  · simp [rpmbLoadRollbackIndex, bootRiTableBlockCnt, h]

theorem rpmbLoadPersistentData_spec (env : LoadEnv) (s : State) :
    ((rpmbLoadPersistentData env s).1 = rvSuccess ↔ PersistPasses env) ∧
      (rpmbLoadPersistentData env s).2.mem.persistentData =
        (loadTable env.persist (addrBase + persistDataBlock) 2 0 s.mem.persistentData).2 ∧
      ((rpmbLoadPersistentData env s).1 = rvSuccess →
        (rpmbLoadPersistentData env s).2.mem.tableInitState = s.mem.tableInitState) := by
  rw [PersistPasses, ← loadTable_two_fst _ _ s.mem.persistentData]
  by_cases h :
      (loadTable env.persist (addrBase + persistDataBlock) 2 0 s.mem.persistentData).1 = rvSuccess
  · simp [rpmbLoadPersistentData, persistDataBlockCnt, h]
  · simp [rpmbLoadPersistentData, persistDataBlockCnt, h]

/-- **What loading does.**  The tables are left initialised when everything passes, and the
persistent values are replaced, block by block, once the header and the rollback indexes
have passed. -/
theorem rpmbLoadBootTable_spec (env : LoadEnv) (hs : s.mem.provisionState ≠ keyNotProvisioned) :
    ((rpmbLoadBootTable env s).2.mem.tableInitState ≠ 0 ↔
        HeaderPasses env ∧ IndexPasses env ∧ PersistPasses env) ∧
      (HeaderPasses env ∧ IndexPasses env → (rpmbLoadBootTable env s).2.mem.persistentData =
        (loadTable env.persist (addrBase + persistDataBlock) 2 0 s.mem.persistentData).2) ∧
      (¬ (HeaderPasses env ∧ IndexPasses env) →
        (rpmbLoadBootTable env s).2.mem.persistentData = s.mem.persistentData) := by
  obtain ⟨hp₁, -, -, hi₁⟩ := rpmbRiCheckMagic_mem env s
  have hc₁ : _ ↔ HeaderPasses env := rpmbRiCheckMagic_fst (s := s)
  obtain ⟨hc₂, hp₂, hi₂⟩ := rpmbLoadRollbackIndex_spec env (rpmbRiCheckMagic env s).2
  obtain ⟨hc₃, hp₃, hi₃⟩ := rpmbLoadPersistentData_spec env
    (rpmbLoadRollbackIndex env (rpmbRiCheckMagic env s).2).2
  rw [hp₁] at hp₂
  rw [hp₂] at hp₃
  simp only [rpmbLoadBootTable, if_neg hs]
  generalize rpmbRiCheckMagic env s = r₁ at *
  generalize rpmbLoadRollbackIndex env r₁.2 = r₂ at *
  generalize rpmbLoadPersistentData env r₂.2 = r₃ at *
  generalize (loadTable env.persist (addrBase + persistDataBlock) 2 0 s.mem.persistentData).2 = t
    at *
  by_cases h₁ : HeaderPasses env
  · rw [if_neg (not_not.2 (hc₁.2 h₁))]
    by_cases h₂ : IndexPasses env
    · rw [if_neg (not_not.2 (hc₂.2 h₂))]
      by_cases h₃ : PersistPasses env
      · rw [if_neg (not_not.2 (hc₃.2 h₃))]
        have hinit := (hi₃ (hc₃.2 h₃)).trans ((hi₂ (hc₂.2 h₂)).trans (hi₁ (hc₁.2 h₁)))
        refine ⟨⟨fun _ => ⟨h₁, h₂, h₃⟩, fun _ => ?_⟩, fun _ => hp₃, fun h => absurd ⟨h₁, h₂⟩ h⟩
        rw [hinit]
        decide
      · rw [if_pos fun h => h₃ (hc₃.1 h)]
        exact ⟨⟨fun h => absurd rfl h, fun h => absurd h.2.2 h₃⟩, fun _ => hp₃,
          fun h => absurd ⟨h₁, h₂⟩ h⟩
    · rw [if_pos fun h => h₂ (hc₂.1 h)]
      exact ⟨⟨fun h => absurd rfl h, fun h => absurd h.2.1 h₂⟩, fun h => absurd h.2 h₂,
        fun _ => hp₂⟩
  · rw [if_pos fun h => h₁ (hc₁.1 h)]
    exact ⟨⟨fun h => absurd rfl h, fun h => absurd h.1 h₁⟩, fun h => absurd h.1 h₁, fun _ => hp₁⟩

/-- The load comes to block `i` of the persistent values. -/
def Reaches (env : LoadEnv) (i : ℕ) : Prop :=
  HeaderPasses env ∧ IndexPasses env ∧
    ∀ j < i, Passes (env.persist j) (addrBase + persistDataBlock + j)

/-- Block `i` of the persistent values in the table. -/
def Mem.persistBlock (m : Mem) (i : ℕ) : List UInt8 := window m.persistentData (256 * i) 256

/-- A response that arrives when the load comes to block `i` is what the block then holds. -/
theorem persistBlock_of_arrives {i : ℕ} {p : Packet}
    (hs : s.mem.provisionState ≠ keyNotProvisioned) (hi : i < 2) (hr : Reaches env i)
    (hp : Arrives (env.persist i) (addrBase + persistDataBlock + i) p) :
    (rpmbLoadBootTable env s).2.mem.persistBlock i = window p.data 0 256 := by
  obtain ⟨h₁, h₂, h₃⟩ := hr
  rw [Mem.persistBlock, (rpmbLoadBootTable_spec env hs).2.1 ⟨h₁, h₂⟩]
  refine window_congr fun a ha => ?_
  rw [loadTable_reached (j := i) (by omega) (by omega) (Nat.zero_le i) (by omega)
    fun j _ hj => h₃ j hj, hp.readOne_eq]
  dsimp only [copyOut]
  rw [copy_of_mem (by omega) (by omega)]
  congr 1
  omega

/-- A block that the load does not come to, or for which nothing arrives, is left alone. -/
theorem persistBlock_of_not_arrives {i : ℕ}
    (hs : s.mem.provisionState ≠ keyNotProvisioned) (hi : i < 2)
    (h : ¬ (Reaches env i ∧ ∃ p, Arrives (env.persist i) (addrBase + persistDataBlock + i) p)) :
    (rpmbLoadBootTable env s).2.mem.persistBlock i = s.mem.persistBlock i := by
  obtain ⟨-, hload, hnot⟩ := rpmbLoadBootTable_spec env hs
  by_cases h₁₂ : HeaderPasses env ∧ IndexPasses env
  · rw [Mem.persistBlock, hload h₁₂]
    refine window_congr fun a ha => ?_
    by_cases hj : ∃ j < i, ¬ Passes (env.persist j) (addrBase + persistDataBlock + j)
    · obtain ⟨j, hj, hpass⟩ := hj
      exact loadTable_not_reached (j := i) (by omega) hj hpass (Nat.zero_le j)
    · push Not at hj
      have hnone := (readOne_of_not_arrives fun p hp => h ⟨⟨h₁₂.1, h₁₂.2, hj⟩, p, hp⟩).2
      rw [loadTable_reached (j := i) (by omega) (by omega) (Nat.zero_le i) (by omega)
        fun j _ hj' => hj j hj', hnone, copyOut]
  · rw [Mem.persistBlock, hnot h₁₂, Mem.persistBlock]

/-! ### When what is taken is authentic -/

/-- Every block that a load takes is authentic. -/
def AllAuthentic (env : LoadEnv) : Prop :=
  Authentic env.header addrBase ∧
    (∀ i < 2, Authentic (env.ri i) (addrBase + bootRiTableBlock + i)) ∧
    ∀ i < 2, Authentic (env.persist i) (addrBase + persistDataBlock + i)

/-- None of the five responses is forged. -/
def NoneForged (env : LoadEnv) : Prop :=
  ¬ Forged env.header addrBase ∧
    (∀ i < 2, ¬ Forged (env.ri i) (addrBase + bootRiTableBlock + i)) ∧
    ∀ i < 2, ¬ Forged (env.persist i) (addrBase + persistDataBlock + i)

/-- After a load the tables and the lock state are initialised from authentic responses
only, and so is every block of the persistent values that has changed. -/
def LoadsAuthentic (env : LoadEnv) (s : State) : Prop :=
  s.mem.provisionState ≠ keyNotProvisioned →
    ((rpmbLoadBootTable env s).2.mem.tableInitState ≠ 0 → AllAuthentic env) ∧
    ∀ i < 2, (rpmbLoadBootTable env s).2.mem.persistBlock i ≠ s.mem.persistBlock i →
      Authentic (env.persist i) (addrBase + persistDataBlock + i)

/-- The condition on the responses: where all five pass the code's checks none is forged,
and a response for a block of the persistent values that the load comes to, and that
differs from what the block holds, is authentic. -/
def LoadGenuine (env : LoadEnv) (s : State) : Prop :=
  s.mem.provisionState ≠ keyNotProvisioned →
    (¬ (HeaderPasses env ∧ IndexPasses env ∧ PersistPasses env) ∨ NoneForged env) ∧
    ∀ i < 2, Reaches env i → ∀ p, Arrives (env.persist i) (addrBase + persistDataBlock + i) p →
      window p.data 0 256 ≠ s.mem.persistBlock i →
      window (getRpmbHmac (env.persist i).smc p.macInput).2 0 32 = p.wireMac ∧
        window p.nonce 0 16 = window (cmGetRandom (env.persist i).random).2 0 16 ∧ p.result = 0

theorem allAuthentic_iff (h₁ : HeaderPasses env) (h₂ : IndexPasses env)
    (h₃ : PersistPasses env) : AllAuthentic env ↔ NoneForged env := by
  have hri : (∀ i < 2, Authentic (env.ri i) (addrBase + bootRiTableBlock + i)) ↔
      ∀ i < 2, ¬ Forged (env.ri i) (addrBase + bootRiTableBlock + i) :=
    forall₂_congr fun i hi => (h₂ i hi).authentic_iff
  have hpersist : (∀ i < 2, Authentic (env.persist i) (addrBase + persistDataBlock + i)) ↔
      ∀ i < 2, ¬ Forged (env.persist i) (addrBase + persistDataBlock + i) :=
    forall₂_congr fun i hi => (h₃ i hi).authentic_iff
  rw [AllAuthentic, NoneForged, h₁.1.authentic_iff, hri, hpersist]

theorem loadsAuthentic_iff (env : LoadEnv) (s : State) :
    LoadsAuthentic env s ↔ LoadGenuine env s := by
  refine forall_congr' fun hs => and_congr ?_ (forall₂_congr fun i hi => ?_)
  · rw [(rpmbLoadBootTable_spec env hs).1]
    constructor
    · intro h
      by_cases hall : HeaderPasses env ∧ IndexPasses env ∧ PersistPasses env
      · exact .inr ((allAuthentic_iff hall.1 hall.2.1 hall.2.2).1 (h hall))
      · exact .inl hall
    · intro h hall
      exact (allAuthentic_iff hall.1 hall.2.1 hall.2.2).2 (h.resolve_left (not_not.2 hall))
  · constructor
    · intro h hr p hp hne
      rw [persistBlock_of_arrives hs hi hr hp] at h
      obtain ⟨q, hq, hauth⟩ := h hne
      obtain rfl := hp.unique hq
      exact hauth
    · intro h hne
      have hr : Reaches env i ∧ ∃ p, Arrives (env.persist i) (addrBase + persistDataBlock + i) p := by
        by_contra hn
        exact hne (persistBlock_of_not_arrives hs hi hn)
      obtain ⟨hr, p, hp⟩ := hr
      rw [persistBlock_of_arrives hs hi hr hp] at hne
      exact ⟨p, hp, h hr p hp hne⟩

/-- **When what is read is authentic.**  `rpmb_read_block` succeeds on authentic responses
only exactly when a block fails one of the checks that it does make or no response is
forged, and `rpmb_load_boot_table` initialises the tables from authentic responses only
exactly when the responses are genuine in the sense of `LoadGenuine`. -/
theorem read_authenticity_iff (env : ℕ → ReadEnv) (addr blkcnt : ℕ) (buf : ℕ → UInt8) (off : ℕ)
    (load : LoadEnv) (s : State) :
    (((rpmbReadBlock env addr blkcnt buf off).1 = rvSuccess →
        ∀ i < blkcnt, Authentic (env i) (addr + i)) ↔ (∃ i < blkcnt, ¬ Passes (env i) (addr + i)) ∨
        ∀ i < blkcnt, ¬ Forged (env i) (addr + i)) ∧
      (LoadsAuthentic load s ↔ LoadGenuine load s) := by
  refine ⟨?_, loadsAuthentic_iff load s⟩
  rw [rpmbReadBlock_fst]
  constructor
  · intro h
    by_cases hall : ∀ i < blkcnt, Passes (env i) (addr + i)
    · exact .inr fun i hi => (hall i hi).authentic_iff.1 (h hall i hi)
    · push Not at hall
      exact .inl hall
  · rintro (⟨i, hi, hn⟩ | h) hall
    · exact absurd (hall i hi) hn
    · exact fun j hj => (hall j hj).authentic_iff.2 (h j hj)

/-- A device that answers every request with the nonce of the request, the MAC 0 and the
result code 1, while the HMAC of the host is `FF…FF`. -/
def forger : ReadEnv where
  random := ⟨0, 7, 9⟩
  device r := .response
    { request := 0x0400, result := 1, nonce := r.nonce, data := store32 (fun _ => 0) 0 bootMagic }
  smc _ _ := (rvSuccess, fun _ => 0xFF)

/-- A load that finds the forger everywhere. -/
def forgedLoad : LoadEnv where
  header := forger
  init _ := ⟨⟨0, 7, 9⟩, fun _ => .noDevice, fun _ => ⟨forger.smc, fun _ => .noDevice⟩⟩
  ri _ := forger
  persist _ := forger

/-- A locked device with nothing loaded. -/
def lockedState : State where
  mem := ⟨0x701, 0, 1, fun _ => 0, fun _ => 0, fun _ => 0⟩
  dev _ _ := 0

/-- A forged block is read, and the tables are loaded from forged blocks, which unlocks
the device. -/
theorem forged_block_read :
    (rpmbReadBlock (fun _ => forger) 512 1 (fun _ => 0) 0).1 = rvSuccess ∧ ¬ Authentic forger 512 ∧
      (rpmbLoadBootTable forgedLoad lockedState).1 = rvSuccess ∧
      (rpmbLoadBootTable forgedLoad lockedState).2.mem.tableInitState = 1 ∧
      (rpmbLoadBootTable forgedLoad lockedState).2.mem.lockState = 0 ∧
      ¬ LoadsAuthentic forgedLoad lockedState := by
  have hforged : ¬ Authentic forger 512 := by
    rintro ⟨p, ⟨-, hp⟩, -, -, hr⟩
    cases hp
    exact absurd hr (by decide)
  have hinit : (rpmbLoadBootTable forgedLoad lockedState).2.mem.tableInitState = 1 := by
    decide +kernel
  refine ⟨by decide +kernel, hforged, by decide +kernel, hinit, by decide +kernel, fun h => ?_⟩
  exact hforged ((h (by decide)).1 (by rw [hinit]; decide)).1

end Rpmb
end LittleKernel
