/-
# Tables and device

`Inv` says that the tables in memory are those of the device.  A load whose blocks are
read as the device holds them, and whose writes are carried out if it has to initialise
the tables, establishes it (`HonestLoad.inv`), and where it holds a fresh load loads the
same tables again (`Inv.fresh`).
-/

import LittleKernel.Rpmb.Authenticity
import LittleKernel.Rpmb.Store

namespace LittleKernel
namespace Rpmb

open Memory Bytes

/-! ### Blocks that are carried out -/

/-- The block `addr` of the device holds the 256 bytes at `buf + off`. -/
def setBlock (dev : Device) (addr : ℕ) (buf : ℕ → UInt8) (off : ℕ) : Device :=
  Function.update dev addr (copy (dev addr) 0 buf off 256)

variable {dev : Device}

theorem setBlock_of_ne {addr a : ℕ} (buf : ℕ → UInt8) (off : ℕ) (h : a ≠ addr) :
    setBlock dev addr buf off a = dev a :=
  Function.update_of_ne h _ _

variable {addr : ℕ}

theorem setBlock_self (buf : ℕ → UInt8) (off : ℕ) {k : ℕ} (h : k < 256) :
    setBlock dev addr buf off addr k = buf (off + k) := by
  rw [setBlock, Function.update_self, copy_of_mem (Nat.zero_le k) (by omega), Nat.sub_zero]

variable {buf : ℕ → UInt8}

/-- Writing what a block holds changes nothing. -/
theorem setBlock_eq {addr off : ℕ}
    (h : ∀ k < 256, buf (off + k) = dev addr k) : setBlock dev addr buf off = dev := by
  refine Function.update_eq_self_iff.2 (funext fun k => ?_)
  rcases Nat.lt_or_ge k 256 with hk | hk
  · rw [copy_of_mem (Nat.zero_le k) (by omega), Nat.sub_zero, h k hk]
  · exact copy_of_not_mem (.inr (by omega))

/-- The answer to a frame, which is sent with whatever HMAC there is. -/
def FrameEnv.replyTo (e : FrameEnv) (packet : Packet) : WriteReply :=
  e.reply { packet with keyMac := fun i => (getRpmbHmac e.smc packet.macInput).2 (31 - i) }

/-- The write of a block reaches the device and is carried out, whatever is answered. -/
def CarriedOut (env : WriteEnv) (addr : ℕ) (buf : ℕ → UInt8) (off : ℕ) : Prop :=
  ∃ p, CounterRead env p ∧
    ((env.frame 0).replyTo (writeRequest p.writeCounter addr off 0 buf)).applied = true

/-- The block could be sent, and the device answered that it carried out the write. -/
def Applied (env : WriteEnv) (addr : ℕ) (buf : ℕ → UInt8) (off : ℕ) : Prop :=
  ∃ q, Sends env addr buf off q ∧ q.result = 0

/-- What a frame leaves on the device: the block, if the write is carried out. -/
theorem ufsRpmbWrite_snd (e : FrameEnv) (dev : Device) (wc : UInt32)
    (haddr : addr < 65536) (buf : ℕ → UInt8) (off : ℕ) :
    (ufsRpmbWrite e dev (writeRequest wc addr off 0 buf)).2 =
      if (e.replyTo (writeRequest wc addr off 0 buf)).applied = true then setBlock dev addr buf off
      else dev := by
  have hto : (writeRequest wc addr off 0 buf).address.toNat = addr := by
    simp only [writeRequest, Nat.add_zero, UInt16.toNat_ofNat']
    exact Nat.mod_eq_of_lt haddr
  have hcopy : copy (dev addr) 0 (writeRequest wc addr off 0 buf).data 0 256 =
      copy (dev addr) 0 buf off 256 := by
    funext k
    simp [copy, writeRequest]
  simp only [ufsRpmbWrite, hto, hcopy, FrameEnv.replyTo]
  split <;> rfl

theorem CarriedOut.writeBlock_snd {env : WriteEnv} {off : ℕ}
    (h : CarriedOut env addr buf off) (haddr : addr < 65536) (dev : Device) :
    (rpmbWriteBlock env dev addr 1 buf off).2 = setBlock dev addr buf off := by
  obtain ⟨p, hp, happlied⟩ := h
  rw [hp.writeBlock_eq, ufsRpmbWrite_snd _ dev _ haddr buf off, if_pos happlied]

theorem writeBlock_snd_of_not_carriedOut {env : WriteEnv} {off : ℕ}
    (h : ¬ CarriedOut env addr buf off) (haddr : addr < 65536) (dev : Device) :
    (rpmbWriteBlock env dev addr 1 buf off).2 = dev := by
  by_cases hread : ∃ p, CounterRead env p
  · obtain ⟨p, hp⟩ := hread
    rw [hp.writeBlock_eq, ufsRpmbWrite_snd _ dev _ haddr buf off,
      if_neg fun happlied => h ⟨p, hp, happlied⟩]
  · exact (writeBlock_of_not_counterRead (not_exists.1 hread) dev addr buf off).2

/-- A write changes one block or nothing. -/
theorem rpmbWriteBlock_snd (env : WriteEnv) (dev : Device) (haddr : addr < 65536)
    (buf : ℕ → UInt8) (off : ℕ) :
    (rpmbWriteBlock env dev addr 1 buf off).2 = dev ∨
      (rpmbWriteBlock env dev addr 1 buf off).2 = setBlock dev addr buf off := by
  by_cases h : CarriedOut env addr buf off
  · exact .inr (h.writeBlock_snd haddr dev)
  · exact .inl (writeBlock_snd_of_not_carriedOut h haddr dev)

/-- A write that is carried out succeeds and sets the block. -/
theorem Applied.writeBlock_eq {env : WriteEnv} {off : ℕ}
    (h : Applied env addr buf off) (haddr : addr < 65536) (dev : Device) :
    rpmbWriteBlock env dev addr 1 buf off = (rvSuccess, setBlock dev addr buf off) := by
  obtain ⟨q, ⟨p, hp, hmac, hreply⟩, hres⟩ := h
  have hto : (writeRequest p.writeCounter addr off 0 buf).address.toNat = addr := by
    simp only [writeRequest, Nat.add_zero, UInt16.toNat_ofNat']
    exact Nat.mod_eq_of_lt haddr
  have hcopy : copy (dev addr) 0 (writeRequest p.writeCounter addr off 0 buf).data 0 256 =
      copy (dev addr) 0 buf off 256 := by
    funext k
    simp [copy, writeRequest]
  rw [hp.writeBlock_eq]
  simp only [ufsRpmbWrite, hmac, hreply, hto, hcopy, WriteReply.applied, hres, decide_true, if_true]
  rfl

/-! ### Tables and device -/

/-- The blocks from `base` on hold the 512 bytes of a table. -/
def Holds (dev : Device) (base : ℕ) (table : ℕ → UInt8) : Prop :=
  ∀ a < 512, dev (base + a / 256) (a % 256) = table a

/-- A table that changes in block `b` only is held again once the block is written. -/
theorem Holds.setBlock {base b : ℕ} {table table' : ℕ → UInt8}
    (h : Holds dev base table) (hout : ∀ a, a / 256 ≠ b → table' a = table a) :
    Holds (setBlock dev (base + b) table' (256 * b)) base table' := by
  intro a ha
  rcases eq_or_ne (a / 256) b with rfl | hb
  · rw [setBlock_self _ _ (Nat.mod_lt _ (by norm_num)), Nat.div_add_mod]
  · rw [setBlock_of_ne _ _ (by omega), hout a hb, h a ha]

theorem Holds.setBlock_of_ne {base addr : ℕ} {table : ℕ → UInt8}
    (h : Holds dev base table) (buf : ℕ → UInt8) (off : ℕ) (hne : addr ≠ base ∧ addr ≠ base + 1) :
    Holds (Rpmb.setBlock dev addr buf off) base table := by
  intro a ha
  have : a / 256 < 2 := Nat.div_lt_of_lt_mul (by omega)
  rw [Rpmb.setBlock_of_ne _ _ (by omega), h a ha]

/-- **The tables are those of the device**, and every key ends. -/
structure Inv (s : State) : Prop where
  prov : s.mem.provisionState ≠ keyNotProvisioned
  init : s.mem.tableInitState = 1
  magic : load32 s.mem.bootHeader 0 = bootMagic
  header : ∀ k < 12, s.dev addrBase k = s.mem.bootHeader k
  lock : load32 (s.dev addrBase) 252 = s.mem.lockState
  ri : Holds s.dev (addrBase + bootRiTableBlock) s.mem.rollbackIndex
  persist : Holds s.dev (addrBase + persistDataBlock) s.mem.persistentData
  keys : KeysEnd s.mem.persistentData

/-- The device answers the request for `addr` authentically with the block that it holds. -/
def ReadsBlock (e : ReadEnv) (dev : Device) (addr : ℕ) : Prop :=
  Passes e addr ∧ Authentic e addr ∧ ∀ p, Arrives e addr p → ∀ k < 256, p.data k = dev addr k

/-- The blocks of a table are read as the device holds them. -/
def ReadsTable (env : ℕ → ReadEnv) (dev : Device) (base : ℕ) : Prop :=
  ∀ i < 2, ReadsBlock (env i) dev (base + i)

theorem ReadsTable.loadTable {env : ℕ → ReadEnv} {base : ℕ}
    (h : ReadsTable env dev base) (table : ℕ → UInt8) :
    Holds dev base (loadTable env base 2 0 table).2 := by
  intro a ha
  have hj : a / 256 < 2 := Nat.div_lt_of_lt_mul (by omega)
  have hmod := Nat.div_add_mod a 256
  obtain ⟨⟨p, hp, -⟩, -, hdata⟩ := h (a / 256) hj
  rw [loadTable_reached (j := a / 256) (by omega) (by omega) (Nat.zero_le _) (by omega)
    fun i _ hi => (h i (by omega)).1, hp.readOne_eq, copyOut, copy_of_mem (by omega) (by omega),
    Nat.zero_add, show a - 256 * (a / 256) = a % 256 by omega,
    hdata p hp _ (Nat.mod_lt _ (by norm_num))]

/-- A load from the device: every block is read as the device holds it. -/
structure Honest (env : LoadEnv) (dev : Device) : Prop where
  header : ReadsBlock env.header dev addrBase
  ri : ReadsTable env.ri dev (addrBase + bootRiTableBlock)
  persist : ReadsTable env.persist dev (addrBase + persistDataBlock)

/-- The tables of two memories agree. -/
structure SameTables (m m' : Mem) : Prop where
  init : m.tableInitState = m'.tableInitState
  lock : m.lockState = m'.lockState
  header : ∀ k < 12, m.bootHeader k = m'.bootHeader k
  ri : ∀ a < 512, m.rollbackIndex a = m'.rollbackIndex a
  persist : ∀ a < 512, m.persistentData a = m'.persistentData a

/-- A fresh load, over whatever the memory held before, loads the tables that are in
memory and leaves the device alone. -/
def Fresh (s : State) : Prop :=
  ∀ (env : LoadEnv) (m : Mem), m.provisionState ≠ keyNotProvisioned → Honest env s.dev →
    ∃ s', rpmbLoadBootTable env ⟨m, s.dev⟩ = (rvSuccess, s') ∧ s'.dev = s.dev ∧
      SameTables s'.mem s.mem

/-! ### Loading -/

/-- What a load that succeeds leaves. -/
def loaded (env : LoadEnv) (s : State) : State :=
  let r := (rpmbRiCheckMagic env s).2
  { r with mem := { r.mem with
    rollbackIndex := (loadTable env.ri (addrBase + bootRiTableBlock) 2 0 s.mem.rollbackIndex).2,
    persistentData := (loadTable env.persist (addrBase + persistDataBlock) 2 0 s.mem.persistentData).2 } }

variable {env : LoadEnv}

theorem rpmbLoadBootTable_eq {s : State}
    (hs : s.mem.provisionState ≠ keyNotProvisioned) (h₁ : HeaderPasses env)
    (h₂ : IndexPasses env) (h₃ : PersistPasses env) :
    rpmbLoadBootTable env s = (rvSuccess, loaded env s) := by
  have hc₁ : (rpmbRiCheckMagic env s).1 = rvSuccess := rpmbRiCheckMagic_fst.2 h₁
  obtain ⟨hp, hr, -⟩ := rpmbRiCheckMagic_mem env s
  have hc₂ := (loadTable_two_fst env.ri (addrBase + bootRiTableBlock) s.mem.rollbackIndex).2 h₂
  have hc₃ := (loadTable_two_fst env.persist (addrBase + persistDataBlock)
    s.mem.persistentData).2 h₃
  simp only [rpmbLoadBootTable, if_neg hs, hc₁, loaded, rpmbLoadRollbackIndex, rpmbLoadPersistentData,
    hr, hp, bootRiTableBlockCnt, persistDataBlockCnt, hc₂, hc₃, ne_eq, not_true_eq_false, if_false]

theorem ReadsTable.passes {env : ℕ → ReadEnv} {base : ℕ}
    (h : ReadsTable env dev base) : ∀ i < 2, Passes (env i) (base + i) :=
  fun i hi => (h i hi).1

/-- A header with the magic number is taken over as the device holds it. -/
theorem rpmbRiCheckMagic_of_magic {s : State}
    (h : ReadsBlock env.header dev addrBase) (hm : HasMagic env) :
    ∃ buf, (∀ k < 256, buf k = dev addrBase k) ∧ rpmbRiCheckMagic env s = (rvSuccess,
      ⟨⟨s.mem.provisionState, 1, load32 buf 252, copy s.mem.bootHeader 0 buf 0 12,
        s.mem.rollbackIndex, s.mem.persistentData⟩, s.dev⟩) := by
  obtain ⟨hpass, -, hdata⟩ := h
  obtain ⟨p, hp, hm⟩ := hm
  have hbuf : (rpmbReadBlock (fun _ => env.header) addrBase 1 (fun _ => 0) 0).2 =
      copy (fun _ => 0) 0 p.data 0 256 := hp.header_buf
  have hread : (rpmbReadBlock (fun _ => env.header) addrBase 1 (fun _ => 0) 0).1 = rvSuccess := by
    rw [rpmbReadBlock_one]
    exact readOne_fst.2 hpass
  refine ⟨copy (fun _ => 0) 0 p.data 0 256, fun k hk => ?_, ?_⟩
  · rw [copy_of_mem (Nat.zero_le k) (by omega), Nat.sub_zero, Nat.zero_add, hdata p hp k hk]
  · simp only [rpmbRiCheckMagic, hread, hbuf, load32_copy_block _ _ (show 0 + 4 ≤ 256 by omega), hm,
      ne_eq, not_true_eq_false, if_false]

/-- The tables in memory are what a fresh load would load. -/
theorem Inv.fresh {s : State} (hs : Inv s) : Fresh s := by
  intro env m hprov henv
  have hmagic : HasMagic env := by
    obtain ⟨⟨p, hp, -⟩, -, hdata⟩ := henv.header
    refine ⟨p, hp, ?_⟩
    rw [← hs.magic]
    exact load32_congr fun k _ hk => (hdata p hp k (by omega)).trans (hs.header k (by omega))
  have hheader : HeaderPasses env := ⟨henv.header.1, .inl hmagic⟩
  obtain ⟨buf, hbuf, hcheck⟩ :=
    rpmbRiCheckMagic_of_magic (s := ⟨m, s.dev⟩) henv.header hmagic
  refine ⟨loaded env ⟨m, s.dev⟩,
    rpmbLoadBootTable_eq hprov hheader henv.ri.passes henv.persist.passes, ?_, ?_⟩
  · rw [loaded, hcheck]
  · rw [loaded, hcheck]
    refine ⟨hs.init.symm, ?_, fun k hk => ?_, fun a ha => ?_, fun a ha => ?_⟩
    · rw [← hs.lock]
      exact load32_congr fun k _ hk => hbuf k (by omega)
    · rw [← hs.header k hk, ← hbuf k (by omega)]
      exact (copy_of_mem (Nat.zero_le k) (by omega)).trans (by rw [Nat.sub_zero, Nat.zero_add])
    · exact (henv.ri.loadTable _ a ha).symm.trans (hs.ri a ha)
    · exact (henv.persist.loadTable _ a ha).symm.trans (hs.persist a ha)

/-- The five blocks of `rpmb_init_table` are carried out. -/
def InitApplied (env : LoadEnv) : Prop :=
  Applied (env.init 0) addrBase initHeader 0 ∧
    (∀ i < 2, Applied (env.init (1 + i)) (addrBase + bootRiTableBlock + i) (fun _ => 0) 0) ∧
    ∀ i < 2, Applied (env.init (3 + i)) (addrBase + persistDataBlock + i) (fun _ => 0) 0

theorem InitApplied.initSends (h : InitApplied env) : InitSends env := by
  obtain ⟨⟨q, hq, -⟩, h₂, h₃⟩ := h
  refine ⟨⟨q, hq⟩, fun i hi => ?_, fun i hi => ?_⟩
  · obtain ⟨q, hq, -⟩ := h₂ i hi
    exact ⟨q, hq⟩
  · obtain ⟨q, hq, -⟩ := h₃ i hi
    exact ⟨q, hq⟩

/-- Two blocks of zeros. -/
def zeroTwo (dev : Device) (addr : ℕ) : Device :=
  setBlock (setBlock dev addr (fun _ => 0) 0) (addr + 1) (fun _ => 0) 0

theorem zeroTwo_of_lt {addr b : ℕ} (h : b < addr) : zeroTwo dev addr b = dev b := by
  rw [zeroTwo, setBlock_of_ne _ _ (by omega), setBlock_of_ne _ _ (by omega)]

theorem zeroBlocks_two_eq (env : ℕ → WriteEnv)
    (h : ∀ i < 2, Applied (env i) (addr + i) (fun _ => 0) 0) (haddr : addr + 1 < 65536)
    (dev : Device) : zeroBlocks env 2 0 addr dev = (rvSuccess, zeroTwo dev addr) := by
  have h0 := (h 0 (by omega)).writeBlock_eq (by omega) dev
  have h1 := (h 1 (by omega)).writeBlock_eq haddr (setBlock dev addr (fun _ => 0) 0)
  rw [Nat.add_zero] at h0
  simp only [zeroBlocks, Nat.add_zero, Nat.zero_add, h0, h1, ne_eq, not_true_eq_false, if_false,
    zeroTwo]

/-- Initialising leaves a header that holds `BOOT_MAGIC` and the lock state 1. -/
theorem rpmbInitTable_of_applied (h : InitApplied env) (s : State) :
    ∃ dev, (∀ k < 256, dev addrBase k = initHeader k) ∧ rpmbInitTable env.init s = (rvSuccess,
      ⟨⟨s.mem.provisionState, s.mem.tableInitState, 1, copy s.mem.bootHeader 0 initHeader 0 12,
        s.mem.rollbackIndex, s.mem.persistentData⟩, dev⟩) := by
  obtain ⟨h₁, h₂, h₃⟩ := h
  have hw := h₁.writeBlock_eq (by decide) s.dev
  have hz₂ := zeroBlocks_two_eq (fun i => env.init (1 + i)) h₂ (by decide)
  have hz₃ := zeroBlocks_two_eq (fun i => env.init (3 + i)) h₃ (by decide)
  refine ⟨zeroTwo (zeroTwo (setBlock s.dev addrBase initHeader 0) (addrBase + bootRiTableBlock))
    (addrBase + persistDataBlock), fun k hk => ?_, ?_⟩
  · rw [zeroTwo_of_lt (by decide), zeroTwo_of_lt (by decide), setBlock_self _ _ hk, Nat.zero_add]
  · simp only [rpmbInitTable, hw, bootRiTableBlockCnt, persistDataBlockCnt, hz₂, hz₃, ne_eq,
      not_true_eq_false, if_false]

/-- The load that the calls start from: its blocks are read as the device holds them, and
if it initialises the tables its writes are carried out. -/
structure HonestLoad (env : LoadEnv) (s s₁ : State) : Prop where
  header : ReadsBlock env.header s.dev addrBase
  init : HasMagic env ∨ InitApplied env
  ri : ReadsTable env.ri s₁.dev (addrBase + bootRiTableBlock)
  persist : ReadsTable env.persist s₁.dev (addrBase + persistDataBlock)

/-- After checking the magic number the header of the device and the variables agree. -/
theorem HonestLoad.checkMagic {s s₁ : State} (h : HonestLoad env s s₁) :
    (rpmbRiCheckMagic env s).2.mem.provisionState = s.mem.provisionState ∧
      (rpmbRiCheckMagic env s).2.mem.tableInitState = 1 ∧
      load32 (rpmbRiCheckMagic env s).2.mem.bootHeader 0 = bootMagic ∧
      (∀ k < 12, (rpmbRiCheckMagic env s).2.dev addrBase k =
        (rpmbRiCheckMagic env s).2.mem.bootHeader k) ∧
      load32 ((rpmbRiCheckMagic env s).2.dev addrBase) 252 =
        (rpmbRiCheckMagic env s).2.mem.lockState := by
  -- either way the header in memory was copied from a buffer that the device's block equals
  have key : ∃ buf, load32 buf 0 = bootMagic ∧
      (∀ k < 256, (rpmbRiCheckMagic env s).2.dev addrBase k = buf k) ∧
      (rpmbRiCheckMagic env s).2.mem = ⟨s.mem.provisionState, 1, load32 buf 252,
        copy s.mem.bootHeader 0 buf 0 12, s.mem.rollbackIndex, s.mem.persistentData⟩ := by
    by_cases hm : HasMagic env
    · obtain ⟨buf, hbuf, hcheck⟩ := rpmbRiCheckMagic_of_magic (s := s) h.header hm
      obtain ⟨p, hp, hmagic⟩ := hm
      refine ⟨buf, ?_, fun k hk => ?_, by rw [hcheck]⟩
      · rw [← hmagic]
        exact load32_congr fun k _ hk =>
          (hbuf k (by omega)).trans (h.header.2.2 p hp k (by omega)).symm
      · rw [hcheck, hbuf k hk]
    · obtain ⟨dev, hdev, hinit⟩ := rpmbInitTable_of_applied (h.init.resolve_left hm) s
      obtain ⟨⟨p, hp, hn, hmac⟩, -⟩ := h.header
      have hread : (rpmbReadBlock (fun _ => env.header) addrBase 1 (fun _ => 0) 0).1 = rvSuccess := by
        rw [rpmbReadBlock_one]
        exact readOne_fst.2 ⟨p, hp, hn, hmac⟩
      have hne : load32 p.data 0 ≠ bootMagic := fun hmagic => hm ⟨p, hp, hmagic⟩
      have hcheck : rpmbRiCheckMagic env s = (rvSuccess, ⟨⟨s.mem.provisionState, 1, 1,
          copy s.mem.bootHeader 0 initHeader 0 12, s.mem.rollbackIndex, s.mem.persistentData⟩,
          dev⟩) := by
        simp only [rpmbRiCheckMagic, hread, hp.header_buf,
          load32_copy_block _ _ (show 0 + 4 ≤ 256 by omega), ne_eq, hne, not_false_eq_true,
          not_true_eq_false, if_true, if_false, hinit]
      refine ⟨initHeader, by decide +kernel, fun k hk => ?_, ?_⟩
      · rw [hcheck]
        exact hdev k hk
      · rw [hcheck]
        rfl
  obtain ⟨buf, hmagic, hdev, hmem⟩ := key
  have hcopy : ∀ k < 12, copy s.mem.bootHeader 0 buf 0 12 k = buf k := fun k hk => by
    rw [copy_of_mem (Nat.zero_le k) (by omega), Nat.sub_zero, Nat.zero_add]
  rw [hmem]
  refine ⟨rfl, rfl, ?_, fun k hk => ?_, ?_⟩
  · rw [← hmagic]
    exact load32_congr fun k _ hk => hcopy k (by omega)
  · exact (hdev k (by omega)).trans (hcopy k hk).symm
  · exact load32_congr fun k _ hk => hdev k (by omega)

/-- **An honest load establishes the invariant**, if every key that it loads ends. -/
theorem HonestLoad.inv {s s₁ : State} (h : HonestLoad env s s₁)
    (hload : rpmbLoadBootTable env s = (rvSuccess, s₁)) (hkeys : KeysEnd s₁.mem.persistentData) :
    Inv s₁ := by
  have hprov : s.mem.provisionState ≠ keyNotProvisioned := by
    intro hp
    have hcode : rvRpmbAuthenKeyNotProvisioned = rvSuccess := by
      rw [rpmbLoadBootTable, if_pos hp] at hload
      exact congrArg Prod.fst hload
    exact absurd hcode (by decide)
  have hheader : HeaderPasses env := ⟨h.header.1, h.init.imp id InitApplied.initSends⟩
  have hs₁ : s₁ = loaded env s := by
    rw [rpmbLoadBootTable_eq hprov hheader h.ri.passes h.persist.passes] at hload
    exact (congrArg Prod.snd hload).symm
  have hri := h.ri.loadTable s.mem.rollbackIndex
  have hpersist := h.persist.loadTable s.mem.persistentData
  obtain ⟨h₁, h₂, h₃, h₄, h₅⟩ := h.checkMagic
  rw [hs₁] at hri hpersist hkeys ⊢
  dsimp only [loaded] at hri hpersist hkeys ⊢
  generalize rpmbRiCheckMagic env s = r at *
  exact ⟨fun hp => hprov (h₁.symm.trans hp), h₂, h₃, h₄, h₅, hri, hpersist, hkeys⟩

end Rpmb
end LittleKernel
