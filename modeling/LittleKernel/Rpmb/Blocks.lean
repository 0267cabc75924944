/-
# Reading and writing blocks

What one turn of the loops of `rpmb_read_block` and `rpmb_write_block` asks of its
surroundings.  A block is read when the checks that the code makes pass (`Passes`):
there was a random number, a frame came back, its nonce is that of the request and its
HMAC could be computed.  A block is written when the frame could be sent and answered
(`Sends`).  `loadTable` reads block after block up to the first that does not pass, and
has copied that one too.
-/

import LittleKernel.Rpmb.Basic

namespace LittleKernel
namespace Rpmb

open Memory Bytes

theorem rvFail_ne : rvFail ≠ rvSuccess := by decide

/-! ### Reading -/

/-- A frame came back for the request of `addr`. -/
def Arrives (e : ReadEnv) (addr : ℕ) (p : Packet) : Prop :=
  (cmGetRandom e.random).1 = rvSuccess ∧
    e.device (readRequest (cmGetRandom e.random).2 addr) = .response p

/-- The checks that `rpmb_read_block` makes of the block at `addr`. -/
def Passes (e : ReadEnv) (addr : ℕ) : Prop :=
  ∃ p, Arrives e addr p ∧ window p.nonce 0 16 = window (cmGetRandom e.random).2 0 16 ∧
    (getRpmbHmac e.smc p.macInput).1 = rvSuccess

variable {addr : ℕ} {e : ReadEnv}

theorem Arrives.unique {p q : Packet} (hp : Arrives e addr p) (hq : Arrives e addr q) : p = q :=
  Transport.response.inj (hp.2.symm.trans hq.2)

theorem Arrives.readOne_eq {p : Packet} (h : Arrives e addr p) :
    readOne e addr = (if window p.nonce 0 16 ≠ window (cmGetRandom e.random).2 0 16 then rvFail
      else (getRpmbHmac e.smc p.macInput).1, some p.data) := by
  simp only [readOne, ufsRpmbRead, h.1, h.2, ne_eq, not_true_eq_false, if_false]
  split <;> rfl

theorem readOne_of_not_arrives (h : ∀ p, ¬ Arrives e addr p) :
    (readOne e addr).1 ≠ rvSuccess ∧ (readOne e addr).2 = none := by
  by_cases hr : (cmGetRandom e.random).1 = rvSuccess
  · cases hd : e.device (readRequest (cmGetRandom e.random).2 addr) with
    | response p => exact absurd ⟨hr, hd⟩ (h p)
    | noDevice | requestFails | readFails =>
      simp only [readOne, ufsRpmbRead, hr, hd, ne_eq, not_true_eq_false, if_false]
      split
      · exact ⟨rvFail_ne, rfl⟩
      · exact ⟨rvFail_ne, rfl⟩
  · simp [readOne, hr]

/-- A turn of the loop succeeds when the checks pass. -/
theorem readOne_fst : (readOne e addr).1 = rvSuccess ↔ Passes e addr := by
  by_cases h : ∃ p, Arrives e addr p
  · obtain ⟨p, hp⟩ := h
    rw [hp.readOne_eq]
    constructor
    · intro hs
      dsimp only at hs
      split at hs
      · exact absurd hs (by decide)
      · rename_i hn
        exact ⟨p, hp, not_not.1 hn, hs⟩
    · rintro ⟨q, hq, hn, hm⟩
      obtain rfl := hp.unique hq
      dsimp only
      rw [if_neg (not_not.2 hn), hm]
  · have hne := (readOne_of_not_arrives (not_exists.1 h)).1
    refine ⟨fun hs => absurd hs hne, ?_⟩
    rintro ⟨p, hp, -⟩
    exact absurd ⟨p, hp⟩ h

variable {env : ℕ → ReadEnv}

theorem readBlocks_fst {addr off : ℕ} :
    ∀ {n k : ℕ} {buf : ℕ → UInt8}, (readBlocks env addr off n k buf).1 = rvSuccess ↔
      ∀ i, k ≤ i → i < k + n → Passes (env i) (addr + i)
  | 0, k, buf => by
      simp only [readBlocks, Nat.add_zero, true_iff]
      intro i h₁ h₂
      omega
  | n + 1, k, buf => by
      simp only [readBlocks]
      split
      · rename_i hne
        refine ⟨fun hs => absurd hs hne, fun h => ?_⟩
        exact absurd (readOne_fst.2 (h k le_rfl (by omega))) hne
      · rename_i hk
        rw [readBlocks_fst]
        have hk := readOne_fst.1 (not_not.1 hk)
        constructor
        · intro h i h₁ h₂
          rcases Nat.eq_or_lt_of_le h₁ with rfl | h₁
          · exact hk
          · exact h i h₁ (by omega)
        · intro h i h₁ h₂
          exact h i (by omega) (by omega)

variable {buf : ℕ → UInt8}

/-- **`rpmb_read_block` succeeds** when the checks it makes pass for every block. -/
theorem rpmbReadBlock_fst {addr blkcnt off : ℕ} :
    (rpmbReadBlock env addr blkcnt buf off).1 = rvSuccess ↔
      ∀ i < blkcnt, Passes (env i) (addr + i) := by
  simp [rpmbReadBlock, readBlocks_fst]

theorem rpmbReadBlock_one (e : ReadEnv) (addr off : ℕ) (buf : ℕ → UInt8) :
    rpmbReadBlock (fun _ => e) addr 1 buf off =
      ((readOne e addr).1, copyOut buf off (readOne e addr).2) := by
  simp only [rpmbReadBlock, readBlocks, Nat.add_zero, Nat.mul_zero]
  split
  · rfl
  · rename_i h
    rw [not_not.1 h]

theorem copyOut_of_not_mem {off a : ℕ} (d : Option (ℕ → UInt8))
    (h : a < off ∨ off + 256 ≤ a) : copyOut buf off d a = buf a := by
  cases d with
  | none => rfl
  | some d => exact copy_of_not_mem h

/-- One turn of the loading loops. -/
theorem loadTable_succ (env : ℕ → ReadEnv) (addr n k : ℕ) (table : ℕ → UInt8) :
    loadTable env addr (n + 1) k table =
      if (readOne (env k) (addr + k)).1 ≠ rvSuccess
      then ((readOne (env k) (addr + k)).1, copyOut table (256 * k) (readOne (env k) (addr + k)).2)
      else loadTable env addr n (k + 1)
        (copyOut table (256 * k) (readOne (env k) (addr + k)).2) := by
  simp only [loadTable, rpmbReadBlock_one]

theorem loadTable_fst :
    ∀ {n k : ℕ} {table : ℕ → UInt8}, (loadTable env addr n k table).1 = rvSuccess ↔
      ∀ i, k ≤ i → i < k + n → Passes (env i) (addr + i)
  | 0, k, table => by
      simp only [loadTable, Nat.add_zero, true_iff]
      intro i h₁ h₂
      omega
  | n + 1, k, table => by
      rw [loadTable_succ]
      split
      · rename_i hne
        refine ⟨fun hs => absurd hs hne, fun h => ?_⟩
        exact absurd (readOne_fst.2 (h k le_rfl (by omega))) hne
      · rename_i hk
        rw [loadTable_fst]
        have hk := readOne_fst.1 (not_not.1 hk)
        constructor
        · intro h i h₁ h₂
          rcases Nat.eq_or_lt_of_le h₁ with rfl | h₁
          · exact hk
          · exact h i h₁ (by omega)
        · intro h i h₁ h₂
          exact h i (by omega) (by omega)

/-- Loading from block `k` on leaves what stands before it and after its last block. -/
theorem loadTable_outside {addr a : ℕ} :
    ∀ {n k : ℕ} {table : ℕ → UInt8}, a < 256 * k ∨ 256 * (k + n) ≤ a →
      (loadTable env addr n k table).2 a = table a
  | 0, _, _, _ => rfl
  | n + 1, k, table, h => by
      rw [loadTable_succ]
      split
      · exact copyOut_of_not_mem _ (by omega)
      · rw [loadTable_outside (by omega)]
        exact copyOut_of_not_mem _ (by omega)

/-- Block `j` holds what its turn copied, once the blocks before it have passed. -/
theorem loadTable_reached {addr j a : ℕ} (ha : 256 * j ≤ a)
    (ha' : a < 256 * (j + 1)) :
    ∀ {n k : ℕ} {table : ℕ → UInt8}, k ≤ j → j < k + n →
      (∀ i, k ≤ i → i < j → Passes (env i) (addr + i)) →
      (loadTable env addr n k table).2 a =
        copyOut table (256 * j) (readOne (env j) (addr + j)).2 a
  | 0, k, table, h₁, h₂, _ => absurd h₂ (by omega)
  | n + 1, k, table, h₁, h₂, h => by
      rw [loadTable_succ]
      rcases Nat.eq_or_lt_of_le h₁ with rfl | h₁
      · split
        · rfl
        · exact loadTable_outside (.inl ha')
      · rw [if_neg (not_not.2 (readOne_fst.2 (h k le_rfl h₁))),
          loadTable_reached ha ha' h₁ (by omega) fun i hi hi' => h i (by omega) hi']
        -- the turn of block `k` does not touch block `j`
        cases hd : (readOne (env j) (addr + j)).2 with
        | none =>
          have hout : copyOut table (256 * k) (readOne (env k) (addr + k)).2 a = table a :=
            copyOut_of_not_mem _ (by omega)
          exact hout
        | some d =>
          have ha'' : a < 256 * j + 256 := by omega
          simp only [copyOut, copy_of_mem ha ha'']

/-- Block `j` is left alone when a block before it has not passed. -/
theorem loadTable_not_reached {addr i j a : ℕ} (ha : 256 * j ≤ a)
    (hij : i < j) (hi : ¬ Passes (env i) (addr + i)) :
    ∀ {n k : ℕ} {table : ℕ → UInt8}, k ≤ i → (loadTable env addr n k table).2 a = table a
  | 0, _, _, _ => rfl
  | n + 1, k, table, h₁ => by
      rw [loadTable_succ]
      split
      · exact copyOut_of_not_mem _ (by omega)
      · rename_i hk
        rcases Nat.eq_or_lt_of_le h₁ with rfl | h₁
        · exact absurd (readOne_fst.1 (not_not.1 hk)) hi
        · rw [loadTable_not_reached ha hij hi h₁]
          exact copyOut_of_not_mem _ (by omega)

/-! ### Writing -/

/-- The counter of the device came back with the nonce of the request. -/
def CounterRead (env : WriteEnv) (p : Packet) : Prop :=
  (cmGetRandom env.random).1 = rvSuccess ∧
    env.counter { request := 0x02, nonce := (cmGetRandom env.random).2 } = .response p ∧
    window p.nonce 0 16 = window (cmGetRandom env.random).2 0 16

/-- The HMAC of a frame could be computed, and the device answered the frame with `q`. -/
def Answered (e : FrameEnv) (packet q : Packet) : Prop :=
  (getRpmbHmac e.smc packet.macInput).1 = rvSuccess ∧
    e.reply { packet with keyMac := fun i => (getRpmbHmac e.smc packet.macInput).2 (31 - i) } =
      .response q

/-- The block at `buf + off` could be sent to `addr`, and the device answered with `q`. -/
def Sends (env : WriteEnv) (addr : ℕ) (buf : ℕ → UInt8) (off : ℕ) (q : Packet) : Prop :=
  ∃ p, CounterRead env p ∧ Answered (env.frame 0) (writeRequest p.writeCounter addr off 0 buf) q

theorem ufsRpmbWrite_fst {e : FrameEnv} {dev : Device} {packet : Packet} :
    (ufsRpmbWrite e dev packet).1 = rvSuccess ↔ ∃ q, Answered e packet q := by
  simp only [ufsRpmbWrite, Answered]
  split
  · rename_i q hq
    rw [hq]
    simp
  · rename_i hne
    constructor
    · intro h
      exact absurd h rvFail_ne
    · rintro ⟨q, -, hq⟩
      exact absurd hq (hne q)

theorem CounterRead.writeBlock_eq {env : WriteEnv} {p : Packet} (h : CounterRead env p)
    (dev : Device) (addr : ℕ) (buf : ℕ → UInt8) (off : ℕ) :
    rpmbWriteBlock env dev addr 1 buf off =
      ufsRpmbWrite (env.frame 0) dev (writeRequest p.writeCounter addr off 0 buf) := by
  obtain ⟨hr, hc, hn⟩ := h
  simp only [rpmbWriteBlock, ufsRpmbCounter, hr, hc, hn, ne_eq, not_true_eq_false, if_false,
    writeBlocks]
  split
  · rfl
  · rename_i h
    exact Prod.ext (not_not.1 h).symm rfl

theorem writeBlock_of_not_counterRead {env : WriteEnv} (h : ∀ p, ¬ CounterRead env p)
    (dev : Device) (addr : ℕ) (buf : ℕ → UInt8) (off : ℕ) :
    (rpmbWriteBlock env dev addr 1 buf off).1 ≠ rvSuccess ∧
      (rpmbWriteBlock env dev addr 1 buf off).2 = dev := by
  by_cases hr : (cmGetRandom env.random).1 = rvSuccess
  · cases hc : env.counter { request := 0x02, nonce := (cmGetRandom env.random).2 } with
    | response p =>
      have hn : window p.nonce 0 16 ≠ window (cmGetRandom env.random).2 0 16 :=
        fun hn => h p ⟨hr, hc, hn⟩
      simp only [rpmbWriteBlock, ufsRpmbCounter, hr, hc, ne_eq, not_true_eq_false, if_false,
        if_pos hn]
      exact ⟨rvFail_ne, trivial⟩
    | noDevice | requestFails | readFails =>
      simp only [rpmbWriteBlock, ufsRpmbCounter, hr, hc, ne_eq, not_true_eq_false, if_false]
      rw [if_pos rvFail_ne]
      exact ⟨rvFail_ne, rfl⟩
  · simp only [rpmbWriteBlock, ne_eq, hr, not_false_eq_true, if_true, and_self]

/-- **`rpmb_write_block` succeeds** when the block could be sent and was answered, whatever
the answer. -/
theorem rpmbWriteBlock_fst {env : WriteEnv} {dev : Device} {addr off : ℕ} :
    (rpmbWriteBlock env dev addr 1 buf off).1 = rvSuccess ↔ ∃ q, Sends env addr buf off q := by
  by_cases h : ∃ p, CounterRead env p
  · obtain ⟨p, hp⟩ := h
    rw [hp.writeBlock_eq, ufsRpmbWrite_fst]
    constructor
    · rintro ⟨q, hq⟩
      exact ⟨q, p, hp, hq⟩
    · rintro ⟨q, p', hp', hq⟩
      obtain rfl : p = p' := Transport.response.inj (hp.2.1.symm.trans hp'.2.1)
      exact ⟨q, hq⟩
  · have hne := (writeBlock_of_not_counterRead (not_exists.1 h) dev addr buf off).1
    refine ⟨fun hs => absurd hs hne, ?_⟩
    rintro ⟨q, p, hp, -⟩
    exact absurd ⟨p, hp⟩ h

end Rpmb
end LittleKernel
