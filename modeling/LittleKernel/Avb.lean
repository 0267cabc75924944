/-
# Verified boot

`platform/exynos9630/security/avb_main.c` (`avb_main`, `avb_set_root_of_trust`,
`update_rp_count_avb`, `update_rp_count_otp`), the rollback index and lock operations of
`security/avb_ops.c` and `lib/lock/lock.c`, which are those of `LittleKernel.Rpmb`, and
the stop of `cmd_boot` in `boot/cmd_boot.c`.

`avb_main` keeps the result of `avb_slot_verify` in `ret`, from which it chooses the
colour, and then the result of `avb_set_root_of_trust` in the same `ret`: what the
verification said is lost (the sibling of `platform/exynos3830` has a variable of its own
for the root of trust).

`update_rp_count_avb` compares the image's indexes with a table in memory, which
`rpmb_set_rollback_index` changes before it writes the block, and reads back from the same
table; `rpmb_write_block` does not look at what the device answers.  So an update succeeds
whether or not the RPMB holds the indexes.  All locations that an image can use are in one
block, and what the RPMB holds in the end is the table as it was at the last write that was
carried out (`After`).  `fails_closed_iff` says when a locked device is stopped all the
same, and when an update has done what its result says.

The answers of `avb_slot_verify`, of the secure monitor and of the device are inputs;
`none` is the fault of `update_rp_count_avb` without slot data.  Printing, the reading of
partitions and the blocking of the HMAC at the end, whose result is only printed, are
left out.
-/

import LittleKernel.Rpmb.Atomic

namespace LittleKernel
namespace Avb

open Memory Bytes
open Rpmb (State Mem WriteEnv)

def avbErrorRpUpdateFail : UInt32 := 0xFDAA4001
def avbErrorAvbkeyLenZero : UInt32 := 0xFDAA4003
/-- `AVB_SLOT_VERIFY_RESULT_ERROR_PUBLIC_KEY_REJECTED`. -/
def publicKeyRejected : UInt32 := 5
/-- `AVB_MAX_NUMBER_OF_ROLLBACK_INDEX_LOCATIONS`. -/
def maxLocations : ℕ := 32

/-- The colour, and the boot state of the same name. -/
inductive Color
  | green
  | yellow
  | orange
  | red
  deriving DecidableEq

/-- What `avb_set_root_of_trust` meets: the partition `vbmeta`, memory for it, the
`public_key_size` of its header, the version of the boot image and the answers of the
secure monitor. -/
structure RotEnv where
  vbmeta : Bool
  memory : Bool
  publicKeySize : UInt64
  osVersion : UInt32
  setPubkey : UInt32 → UInt32
  setOsVersion : UInt32 → UInt32 → UInt32
  setVendorBootVersion : UInt32 → UInt32 → UInt32
  setDeviceState : Bool → UInt32
  setBootState : Color → UInt32

/-- `avb_set_root_of_trust`. -/
def avbSetRootOfTrust (r : RotEnv) (deviceState : Bool) (bootState : Color) : UInt32 :=
  let keyLen := r.publicKeySize.toUInt32
  if !r.vbmeta then Rpmb.rvFail
  else if !r.memory then Rpmb.rvFail
  else if keyLen = 0 then avbErrorAvbkeyLenZero
  else if r.setPubkey keyLen ≠ 0 then r.setPubkey keyLen
  else
    let ret := r.setOsVersion ((r.osVersion &&& 0xFFFFF800) >>> 11) (r.osVersion &&& 0x7FF)
    if ret ≠ 0 then ret
    else if r.setVendorBootVersion 0 0 ≠ 0 then r.setVendorBootVersion 0 0
    else if r.setDeviceState deviceState ≠ 0 then r.setDeviceState deviceState
    else r.setBootState bootState

/-- What is used of `AvbSlotVerifyData`. -/
structure SlotData where
  rollbackIndexes : ℕ → UInt64
  cmdline : CString

/-- The build's configuration and the answers that `avb_main` meets. -/
structure Env where
  avbRpUpdate : Bool
  otpRpUpdate : Bool
  verify : UInt32
  data : Option SlotData
  rot : RotEnv
  abUpdateSupport : Bool
  abSlotSuccessful : UInt32
  write : ℕ → WriteEnv
  otpBl1 : UInt32
  otpEpbl : UInt32

/-- `get_lock_state` of `lib/lock/lock.c`. -/
def getLockState (m : Mem) : ℤ :=
  if (Rpmb.rpmbGetLockState m).code = Rpmb.rvSuccess then m.lockState else -1

/-- The flag that `exynos_read_is_device_unlocked` hands out. -/
def unlocked (m : Mem) : Bool := getLockState m = 0

/-- `is_slot_marked_successful`. -/
def isSlotMarkedSuccessful (e : Env) : UInt32 := if !e.abUpdateSupport then 1 else e.abSlotSuccessful

/-- `update_rp_count_otp`. -/
def updateRpCountOtp (e : Env) : UInt32 := if e.otpBl1 ≠ 0 then e.otpBl1 else e.otpEpbl

/-- The loop of `update_rp_count_avb` from location `i` on, `n` locations left. -/
def updateRpCountAvb (write : ℕ → WriteEnv) (index : ℕ → UInt64) :
    ℕ → ℕ → UInt32 → State → UInt32 × State
  | 0, _, ret, s => (ret, s)
  | n + 1, i, ret, s =>
    if index i = 0 then updateRpCountAvb write index n (i + 1) ret s
    else
      let r := Rpmb.rpmbGetRollbackIndex s.mem i true
      if r.code ≠ 0 then (r.code, s)
      else if (index i).toNat ≤ r.value.getD 0 then
        updateRpCountAvb write index n (i + 1) r.code s
      else
        let w := Rpmb.rpmbSetRollbackIndex (write i) s i (index i)
        if w.1 ≠ 0 then w
        else
          let r := Rpmb.rpmbGetRollbackIndex w.2.mem i true
          if r.code ≠ 0 then (r.code, w.2)
          else
            let ret := if (index i).toNat ≠ r.value.getD 0 then avbErrorRpUpdateFail else r.code
            updateRpCountAvb write index n (i + 1) ret w.2

/-- What `avb_main` leaves: its code, the tables and the device, the colour appended to
`verifiedbootstate`, and the command line if it set one. -/
structure Outcome where
  ret : UInt32
  state : State
  color : Color
  cmdline : Option CString

/-- The colour that `avb_main` chooses. -/
def colorOf (unlock : Bool) (verify : UInt32) : Color :=
  if unlock then .orange
  else if verify = publicKeyRejected then .yellow
  else if verify ≠ 0 then .red
  else .green

/-- `avb_main`. -/
def avbMain (e : Env) (s : State) : Option Outcome :=
  let unlock := unlocked s.mem
  let color := colorOf unlock e.verify
  let ret := avbSetRootOfTrust e.rot (!unlock) color
  if ret ≠ 0 then some ⟨ret, s, color, none⟩
  else
    -- the updates of the rollback counts, `none` where there is no slot data
    let rp : Option (UInt32 × State) :=
      if isSlotMarkedSuccessful e = 0 ∨ !e.avbRpUpdate then some (ret, s)
      else e.data.map fun d => updateRpCountAvb e.write d.rollbackIndexes maxLocations 0 0 s
    rp.map fun rp =>
      if rp.1 ≠ 0 then ⟨rp.1, rp.2, color, none⟩
      else
        let ret := if isSlotMarkedSuccessful e = 0 ∨ !e.otpRpUpdate then rp.1 else updateRpCountOtp e
        if ret ≠ 0 then ⟨ret, rp.2, color, none⟩
        else ⟨ret, rp.2, color, e.data.map SlotData.cmdline⟩

/-- `cmd_boot` resets the device after `avb_main`.  Its `lock_state` is not initialised:
`junk` is what it holds when `rpmb_get_lock_state` fails. -/
def cmdBootStops (o : Outcome) (junk : UInt32) : Prop :=
  (if (Rpmb.rpmbGetLockState o.state.mem).code = Rpmb.rvSuccess then o.state.mem.lockState
    else junk.toNat) ≠ 0 ∧ o.ret ≠ 0

/-- The blocks of the rollback indexes start at `addrBase + bootRiTableBlock`. -/
def riBlock : ℕ := Rpmb.addrBase + Rpmb.bootRiTableBlock

/-- The index that a device holds for a location. -/
def indexOn (dev : Rpmb.Device) (i : ℕ) : ℕ :=
  load64 (fun a => dev (riBlock + a / 256) (a % 256)) (8 * i)

/-- The index that the RPMB holds for a location. -/
def storedIndex (s : State) (i : ℕ) : ℕ := indexOn s.dev i

/-! ### The table in memory -/

/-- The tables can be read. -/
def Readable (m : Mem) : Prop :=
  m.provisionState ≠ Rpmb.keyNotProvisioned ∧ m.tableInitState ≠ 0

instance (m : Mem) : Decidable (Readable m) := inferInstanceAs (Decidable (_ ∧ _))

theorem rpmbGetRollbackIndex_of_readable {m : Mem} (h : Readable m) {i : ℕ} (hi : i < 64) :
    Rpmb.rpmbGetRollbackIndex m i true =
      { code := Rpmb.rvSuccess, value := some (load64 m.rollbackIndex (8 * i)) } := by
  simp [Rpmb.rpmbGetRollbackIndex, h.1, h.2, Rpmb.bootRiTableSize, Nat.not_le.2 hi]

theorem rpmbGetRollbackIndex_of_not_readable {m : Mem} (h : ¬ Readable m) {i : ℕ} (hi : i < 64) :
    (Rpmb.rpmbGetRollbackIndex m i true).code ≠ 0 ∧
      (Rpmb.rpmbGetRollbackIndex m i true).value = none := by
  by_cases hp : m.provisionState = Rpmb.keyNotProvisioned
  · simp [Rpmb.rpmbGetRollbackIndex, hp, Rpmb.rvRpmbAuthenKeyNotProvisioned]
  · have ht : m.tableInitState = 0 := by
      by_contra ht
      exact h ⟨hp, ht⟩
    simp [Rpmb.rpmbGetRollbackIndex, hp, ht, Rpmb.bootRiTableSize, Nat.not_le.2 hi,
      Rpmb.rvRpmbRiTableNotInitialized]

theorem rpmbGetLockState_code (m : Mem) :
    (Rpmb.rpmbGetLockState m).code = Rpmb.rvSuccess ↔ Readable m := by
  by_cases hp : m.provisionState = Rpmb.keyNotProvisioned
  · simp [Rpmb.rpmbGetLockState, Readable, hp, Rpmb.rvRpmbAuthenKeyNotProvisioned, Rpmb.rvSuccess]
  · by_cases ht : m.tableInitState = 0
    · simp [Rpmb.rpmbGetLockState, Readable, hp, ht, Rpmb.rvRpmbRiTableNotInitialized,
        Rpmb.rvSuccess]
    · simp [Rpmb.rpmbGetLockState, Readable, hp, ht]

/-- Everything but the rollback indexes is alike. -/
structure SameButIndexes (s s' : State) : Prop where
  prov : s'.mem.provisionState = s.mem.provisionState
  init : s'.mem.tableInitState = s.mem.tableInitState
  lock : s'.mem.lockState = s.mem.lockState

theorem SameButIndexes.refl (s : State) : SameButIndexes s s := ⟨rfl, rfl, rfl⟩

/-- The index of a location in the table in memory. -/
def indexAt (s : State) (i : ℕ) : ℕ := load64 s.mem.rollbackIndex (8 * i)

section Update

variable (write : ℕ → WriteEnv) (index : ℕ → UInt64) (s : State)

/-- The image's index is above that of the table in memory. -/
def Raises (i : ℕ) : Prop := indexAt s i < (index i).toNat

instance (i : ℕ) : Decidable (Raises index s i) := inferInstanceAs (Decidable (_ < _))

/-- The table in memory once the locations below a location have been raised. -/
def raisedTable : ℕ → ℕ → UInt8
  | 0 => s.mem.rollbackIndex
  | i + 1 =>
    if Raises index s i then store64 (raisedTable i) (8 * i) (index i).toNat else raisedTable i

/-- The write for location `i` returns no error. -/
def Sent (i : ℕ) : Prop := ∃ q, Rpmb.Sends (write i) riBlock (raisedTable index s (i + 1)) 0 q

/-- The write for location `i` is carried out by the device. -/
def Carried (i : ℕ) : Prop := Rpmb.CarriedOut (write i) riBlock (raisedTable index s (i + 1)) 0

/-- `update_rp_count_avb` comes to location `i` and writes. -/
def Tried (i : ℕ) : Prop :=
  i < maxLocations ∧ Raises index s i ∧ ∀ j < i, Raises index s j → Sent write index s j

/-- Of the writes for locations below `n` the last that is carried out is that of `j`. -/
def LastCarried (n j : ℕ) : Prop :=
  j < n ∧ (Tried write index s j ∧ Carried write index s j) ∧
    ∀ k, j < k → k < n → Tried write index s k → ¬ Carried write index s k

/-- The index of location `k` in the block that is written for location `j`. -/
def blockIndex (j k : ℕ) : ℕ :=
  if k ≤ j then max (indexAt s k) (index k).toNat else indexAt s k

/-- What the device holds after the locations below `n`: the block that was written last
of those that were carried out, or what it held before. -/
structure After (n : ℕ) (dev : Rpmb.Device) : Prop where
  rest : ∀ k, maxLocations ≤ k → k < 64 → indexOn dev k = storedIndex s k
  block : (∃ j, LastCarried write index s n j ∧
      ∀ k < maxLocations, indexOn dev k = blockIndex index s j k) ∨
    (∀ j < n, Tried write index s j → ¬ Carried write index s j) ∧ dev = s.dev

variable {write index s}

theorem LastCarried.unique {n j j' : ℕ} (h : LastCarried write index s n j)
    (h' : LastCarried write index s n j') : j = j' := by
  rcases Nat.lt_trichotomy j j' with hlt | heq | hgt
  · exact absurd h'.2.1.2 (h.2.2 j' hlt h'.1 h'.2.1.1)
  · exact heq
  · exact absurd h.2.1.2 (h'.2.2 j hgt h.1 h.2.1.1)

/-- An index of the table in memory after the locations below `n`. -/
theorem load64_raisedTable (n k : ℕ) : load64 (raisedTable index s n) (8 * k) =
    if k < n then max (indexAt s k) (index k).toNat else indexAt s k := by
  induction n with
  | zero => rfl
  | succ n ih =>
    rw [raisedTable]
    rcases eq_or_ne k n with rfl | hne
    · rw [if_neg (lt_irrefl k)] at ih
      rw [if_pos k.lt_succ_self]
      by_cases hr : Raises index s k
      · rw [if_pos hr, load64_store64, Nat.mod_eq_of_lt (index k).toNat_lt, max_eq_right hr.le]
      · rw [if_neg hr, ih, max_eq_left (not_lt.1 hr)]
    · have hiff : k < n + 1 ↔ k < n := by omega
      simp only [hiff, ← ih]
      split_ifs
      · exact load64_store64_of_ne (by omega)
      · rfl

theorem indexOn_setBlock (dev : Rpmb.Device) (table : ℕ → UInt8) {k : ℕ} (hk : k < maxLocations) :
    indexOn (Rpmb.setBlock dev riBlock table 0) k = load64 table (8 * k) := by
  refine load64_congr fun a _ ha => ?_
  have hlt : a < 256 := by
    rw [maxLocations] at hk
    omega
  rw [Nat.div_eq_of_lt hlt, Nat.mod_eq_of_lt hlt, Nat.add_zero, Rpmb.setBlock_self _ _ hlt,
    Nat.zero_add]

theorem indexOn_setBlock_of_ge (dev : Rpmb.Device) (table : ℕ → UInt8) {k : ℕ}
    (hk : maxLocations ≤ k) : indexOn (Rpmb.setBlock dev riBlock table 0) k = indexOn dev k := by
  refine load64_congr fun a ha _ => ?_
  have hpos : 1 ≤ a / 256 := by
    rw [maxLocations] at hk
    omega
  rw [Rpmb.setBlock_of_ne _ _ (by omega)]

variable {dev : Rpmb.Device}

/-- A location without a write, or with one that is not carried out. -/
theorem After.skip {n : ℕ} (h : After write index s n dev)
    (hno : Tried write index s n → ¬ Carried write index s n) : After write index s (n + 1) dev := by
  refine ⟨h.rest, h.block.imp ?_ ?_⟩
  · rintro ⟨j, ⟨hj, hcar, hlast⟩, hall⟩
    refine ⟨j, ⟨by omega, hcar, fun k hk hkn ht => ?_⟩, hall⟩
    rcases Nat.lt_succ_iff_lt_or_eq.1 hkn with hlt | rfl
    · exact hlast k hk hlt ht
    · exact hno ht
  · rintro ⟨hnone, hdev⟩
    refine ⟨fun j hj ht => ?_, hdev⟩
    rcases Nat.lt_succ_iff_lt_or_eq.1 hj with hlt | rfl
    · exact hnone j hlt ht
    · exact hno ht

/-- The write of a location. -/
theorem After.sends {n : ℕ} (h : After write index s n dev)
    (ht : Tried write index s n) : After write index s (n + 1)
      (Rpmb.rpmbWriteBlock (write n) dev riBlock 1 (raisedTable index s (n + 1)) 0).2 := by
  by_cases hc : Carried write index s n
  · rw [Rpmb.CarriedOut.writeBlock_snd hc (by decide) dev]
    refine ⟨fun k hk hk64 => ?_, .inl ⟨n, ⟨n.lt_succ_self, ⟨ht, hc⟩, fun k hk hkn => ?_⟩,
      fun k hk => ?_⟩⟩
    · rw [indexOn_setBlock_of_ge dev _ hk, h.rest k hk hk64]
    · omega
    · rw [indexOn_setBlock dev _ hk, load64_raisedTable, blockIndex]
      simp only [Nat.lt_succ_iff]
  · rw [Rpmb.writeBlock_snd_of_not_carriedOut hc (by decide) dev]
    exact h.skip fun _ => hc

/-- Locations without a write. -/
theorem After.skips {m n : ℕ} (h : After write index s m dev) (hmn : m ≤ n)
    (hno : ∀ k, m ≤ k → ¬ Tried write index s k) : After write index s n dev := by
  induction hmn with
  | refl => exact h
  | step hle ih => exact ih.skip fun ht => absurd ht (hno _ hle)

/-- One location of `update_rp_count_avb` on tables that can be read.  The index that is
read back is the one that was set, since both are those of the table in memory. -/
theorem updateRpCountAvb_succ {n i : ℕ} {t : State} (hr : Readable s.mem)
    (ht : t.mem = { s.mem with rollbackIndex := raisedTable index s i }) (hi : i < maxLocations) :
    updateRpCountAvb write index (n + 1) i 0 t =
      if Raises index s i then
        let w := Rpmb.rpmbWriteBlock (write i) t.dev riBlock 1 (raisedTable index s (i + 1)) 0
        let t' : State := ⟨{ s.mem with rollbackIndex := raisedTable index s (i + 1) }, w.2⟩
        if w.1 ≠ 0 then (w.1, t') else updateRpCountAvb write index n (i + 1) 0 t'
      else updateRpCountAvb write index n (i + 1) 0 t := by
  have hi64 : i < 64 := hi.trans (by decide)
  have hreadable (table : ℕ → UInt8) : Readable { s.mem with rollbackIndex := table } := hr
  have hread : load64 t.mem.rollbackIndex (8 * i) = indexAt s i := by
    rw [ht, load64_raisedTable, if_neg (lt_irrefl i)]
  rw [updateRpCountAvb]
  by_cases hraise : Raises index s i
  swap
  · -- the location is not used, or its index is not above the table's
    rw [if_neg hraise, rpmbGetRollbackIndex_of_readable (ht ▸ hreadable _) hi64]
    simp only [hread, Option.getD_some, if_pos (not_lt.1 hraise), ne_eq, Rpmb.rvSuccess,
      not_true_eq_false, if_false, ite_self]
  have hused : index i ≠ 0 := fun h0 => by
    rw [Raises, h0] at hraise
    exact Nat.not_lt_zero _ hraise
  have hset : Rpmb.rpmbSetRollbackIndex (write i) t i (index i) =
      ((Rpmb.rpmbWriteBlock (write i) t.dev riBlock 1 (raisedTable index s (i + 1)) 0).1,
        ⟨{ s.mem with rollbackIndex := raisedTable index s (i + 1) },
          (Rpmb.rpmbWriteBlock (write i) t.dev riBlock 1 (raisedTable index s (i + 1)) 0).2⟩) := by
    have hdiv : i / 32 = 0 := Nat.div_eq_of_lt hi
    rw [raisedTable, if_pos hraise]
    simp [Rpmb.rpmbSetRollbackIndex, ht, hr.1, hr.2, Rpmb.bootRiTableSize, Nat.not_le.2 hi64,
      Rpmb.rpmbUpdateTableBlock, hdiv, riBlock]
  have hback : load64 (raisedTable index s (i + 1)) (8 * i) = (index i).toNat := by
    rw [load64_raisedTable, if_pos i.lt_succ_self, max_eq_right hraise.le]
  rw [if_pos hraise, if_neg hused, rpmbGetRollbackIndex_of_readable (ht ▸ hreadable _) hi64, hset]
  simp only [hread, Option.getD_some, if_neg (not_le.2 hraise), Rpmb.rvSuccess, ne_eq,
    not_true_eq_false, if_false, rpmbGetRollbackIndex_of_readable (hreadable _) hi64, hback]

/-- **What an update does on tables that can be read**: it succeeds when every write is
sent, and leaves the block of the last write that is carried out. -/
theorem updateRpCountAvb_of_readable (hr : Readable s.mem) {n i : ℕ} {t : State}
    (hn : i + n = maxLocations) (ht : t.mem = { s.mem with rollbackIndex := raisedTable index s i })
    (hsent : ∀ j < i, Raises index s j → Sent write index s j) (hafter : After write index s i t.dev) :
    SameButIndexes s (updateRpCountAvb write index n i 0 t).2 ∧
      ((updateRpCountAvb write index n i 0 t).1 = 0 ↔
        ∀ j < maxLocations, Raises index s j → Sent write index s j) ∧
      After write index s maxLocations (updateRpCountAvb write index n i 0 t).2.dev := by
  induction n generalizing i t with
  | zero =>
    obtain rfl : i = maxLocations := hn
    exact ⟨⟨by rw [updateRpCountAvb, ht], by rw [updateRpCountAvb, ht], by rw [updateRpCountAvb, ht]⟩,
      iff_of_true rfl hsent, hafter⟩
  | succ n ih =>
    have hi : i < maxLocations := by omega
    have hnext (h : Raises index s i → Sent write index s i) (j : ℕ) (hj : j < i + 1)
        (hraise : Raises index s j) : Sent write index s j := by
      rcases Nat.lt_succ_iff_lt_or_eq.1 hj with hlt | rfl
      · exact hsent j hlt hraise
      · exact h hraise
    rw [updateRpCountAvb_succ hr ht hi]
    by_cases hraise : Raises index s i
    swap
    · rw [if_neg hraise]
      refine ih (by omega) ?_ (hnext fun h => absurd h hraise) (hafter.skip fun h => absurd h.2.1 hraise)
      rw [ht, raisedTable, if_neg hraise]
    have htried : Tried write index s i := ⟨hi, hraise, hsent⟩
    rw [if_pos hraise]
    dsimp only
    split_ifs with hfail
    · -- the write is not sent, and no further location is tried
      have hnot : ¬ Sent write index s i := fun h => hfail (Rpmb.rpmbWriteBlock_fst.2 h)
      refine ⟨⟨rfl, rfl, rfl⟩, iff_of_false hfail fun h => hnot (h i hi hraise), ?_⟩
      exact (hafter.sends htried).skips (by omega) fun k hk hk' => hnot (hk'.2.2 i hk hraise)
    · exact ih (by omega) rfl (hnext fun _ => Rpmb.rpmbWriteBlock_fst.1 (not_not.1 hfail))
        (hafter.sends htried)

/-- **No index is raised** when the last block that is carried out raises none. -/
theorem After.notRaised_iff (h : After write index s maxLocations dev) :
    (∀ i < 64, indexOn dev i ≤ storedIndex s i) ↔ ∀ j, LastCarried write index s maxLocations j →
        ∀ k < maxLocations, blockIndex index s j k ≤ storedIndex s k := by
  have h64 : maxLocations ≤ 64 := by decide
  rcases h.block with ⟨j, hj, hall⟩ | ⟨hnone, rfl⟩
  · constructor
    · intro hle j' hj' k hk
      rw [← hj.unique hj', ← hall k hk]
      exact hle k (hk.trans_le h64)
    · intro hle i hi
      rcases Nat.lt_or_ge i maxLocations with hlt | hge
      · exact (hall i hlt).trans_le (hle j hj i hlt)
      · exact (h.rest i hge hi).le
  · refine iff_of_true (fun _ _ => le_rfl) fun j hj => absurd hj.2.1.2 (hnone j hj.1 hj.2.1.1)

/-- The last index that is to be raised is carried out, or no write is and the RPMB holds
indexes that are not below the image's. -/
def Covered (write : ℕ → WriteEnv) (index : ℕ → UInt64) (s : State) : Prop :=
  (∃ j < maxLocations, (Raises index s j ∧ Carried write index s j) ∧
      ∀ k < maxLocations, j < k → ¬ Raises index s k) ∨
    (∀ j < maxLocations, Raises index s j → ¬ Carried write index s j) ∧
      ∀ k < maxLocations, (index k).toNat ≤ storedIndex s k

/-- **The RPMB holds the image's indexes** after an update that succeeds. -/
theorem After.covered_iff (h : After write index s maxLocations dev)
    (hsent : ∀ j < maxLocations, Raises index s j → Sent write index s j) :
    (∀ k < maxLocations, index k ≠ 0 → (index k).toNat ≤ indexOn dev k) ↔
      Covered write index s := by
  have htried {j : ℕ} (hj : j < maxLocations) : Tried write index s j ↔ Raises index s j :=
    ⟨fun ht => ht.2.1, fun hr => ⟨hj, hr, fun k hk => hsent k (hk.trans hj)⟩⟩
  have hzero {k v : ℕ} (h : index k ≠ 0 → (index k).toNat ≤ v) : (index k).toNat ≤ v := by
    by_cases h0 : index k = 0
    · rw [h0]
      exact Nat.zero_le v
    · exact h h0
  rcases h.block with ⟨j, hj, hall⟩ | ⟨hnone, rfl⟩
  · obtain ⟨hlt, ⟨hjt, hjc⟩, hlast⟩ := hj
    constructor
    · refine fun hle => .inl ⟨j, hlt, ⟨hjt.2.1, hjc⟩, fun k hk hjk => not_lt.2 ?_⟩
      have hk' := hzero (hle k hk)
      rwa [hall k hk, blockIndex, if_neg (by omega)] at hk'
    · rintro (⟨j', hlt', ⟨hr', hc'⟩, hmax⟩ | ⟨hnone, -⟩) k hk -
      · obtain rfl : j = j' := LastCarried.unique ⟨hlt, ⟨hjt, hjc⟩, hlast⟩
          ⟨hlt', ⟨(htried hlt').2 hr', hc'⟩, fun i hi hi' ht => absurd ht.2.1 (hmax i hi' hi)⟩
        rw [hall k hk, blockIndex]
        split_ifs with hkj
        · exact le_max_right _ _
        · exact not_lt.1 (hmax k hk (by omega))
      · exact absurd hjc (hnone j hlt hjt.2.1)
  · have hnone (j : ℕ) (hj : j < maxLocations) (hr : Raises index s j) : ¬ Carried write index s j :=
      hnone j hj ((htried hj).2 hr)
    constructor
    · exact fun hle => .inr ⟨hnone, fun k hk => hzero (hle k hk)⟩
    · rintro (⟨j, hj, ⟨hr, hc⟩, -⟩ | ⟨-, hle⟩) k hk -
      · exact absurd hc (hnone j hj hr)
      · exact hle k hk

/-- The device before an update. -/
theorem after_zero : After write index s 0 s.dev :=
  ⟨fun _ _ _ => rfl, .inr ⟨fun _ hj => absurd hj (Nat.not_lt_zero _), rfl⟩⟩

/-- On tables that cannot be read the first location that is used ends the update. -/
theorem updateRpCountAvb_of_not_readable {s : State} (hs : ¬ Readable s.mem) :
    ∀ {n i : ℕ} {ret : UInt32}, i + n ≤ 64 → (updateRpCountAvb write index n i ret s).2 = s ∧
      ((∀ j, i ≤ j → j < i + n → index j = 0) → (updateRpCountAvb write index n i ret s).1 = ret) ∧
      ((∃ j, i ≤ j ∧ j < i + n ∧ index j ≠ 0) → (updateRpCountAvb write index n i ret s).1 ≠ 0)
  | 0, i, ret, _ => by
      refine ⟨rfl, fun _ => rfl, ?_⟩
      rintro ⟨j, h₁, h₂, -⟩
      omega
  | n + 1, i, ret, hle => by
      by_cases hused : index i = 0
      · obtain ⟨h₁, h₂, h₃⟩ := @updateRpCountAvb_of_not_readable s hs n (i + 1) ret (by omega)
        simp only [updateRpCountAvb, if_pos hused]
        refine ⟨h₁, fun h => h₂ fun j hj hj' => h j (by omega) (by omega), ?_⟩
        rintro ⟨j, hj, hj', hne⟩
        refine h₃ ⟨j, ?_, by omega, hne⟩
        rcases Nat.eq_or_lt_of_le hj with rfl | hj
        · exact absurd hused hne
        · exact hj
      · have hcode := (rpmbGetRollbackIndex_of_not_readable hs (show i < 64 by omega)).1
        simp only [updateRpCountAvb, if_neg hused, if_pos hcode]
        exact ⟨trivial, fun h => absurd (h i le_rfl (by omega)) hused, fun _ => hcode⟩

end Update

/-! ### Failing closed -/

/-- **Verified boot fails closed.**  A locked device whose slot was not verified gets a
code other than 0, at which `cmd_boot` stops, and no index in the RPMB has been raised; and
after an update that returns 0 the RPMB holds an index at least the image's for every
location that the image uses. -/
structure FailsClosed (e : Env) (s : State) (junk : UInt32) : Prop where
  stops : unlocked s.mem = false → e.verify ≠ 0 →
    ∃ o, avbMain e s = some o ∧ o.ret ≠ 0 ∧ cmdBootStops o junk ∧
      ∀ i < 64, storedIndex o.state i ≤ storedIndex s i
  updated : ∀ o, avbMain e s = some o → o.ret = 0 → e.avbRpUpdate = true →
    isSlotMarkedSuccessful e ≠ 0 → ∃ d, e.data = some d ∧
      ∀ i < maxLocations, d.rollbackIndexes i ≠ 0 →
        (d.rollbackIndexes i).toNat ≤ storedIndex o.state i

/-- The result of the root of trust for a locked device. -/
def Env.rotRet (e : Env) : UInt32 := avbSetRootOfTrust e.rot true (colorOf false e.verify)

/-- The update of the indexes of slot data fails: a write is not sent, or a location is used
and the tables cannot be read. -/
def SlotData.UpdateFails (d : SlotData) (e : Env) (s : State) : Prop :=
  if Readable s.mem then
    ∃ i < maxLocations, Raises d.rollbackIndexes s i ∧ ¬ Sent e.write d.rollbackIndexes s i
  else ∃ i < maxLocations, d.rollbackIndexes i ≠ 0

/-- The update of the indexes is built in, has slot data and fails. -/
def UpdateFails (e : Env) (s : State) : Prop :=
  e.avbRpUpdate = true ∧ ∃ d, e.data = some d ∧ d.UpdateFails e s

/-- The update of the fuses is built in and fails. -/
def OtpFails (e : Env) : Prop := e.otpRpUpdate = true ∧ updateRpCountOtp e ≠ 0

/-- An update that is built in has slot data, and of its writes the last that is carried out
raises no index of the RPMB. -/
def RaisesNone (e : Env) (s : State) : Prop :=
  e.avbRpUpdate = true → ∃ d, e.data = some d ∧ (Readable s.mem →
    ∀ j, LastCarried e.write d.rollbackIndexes s maxLocations j →
      ∀ k < maxLocations, blockIndex d.rollbackIndexes s j k ≤ storedIndex s k)

/-- The condition of the first half: the device is unlocked, the slot was verified, or one
of the later steps fails, no index is raised, and `cmd_boot` learns that the device is
locked. -/
def Stops (e : Env) (s : State) (junk : UInt32) : Prop :=
  unlocked s.mem = true ∨ e.verify = 0 ∨
    (Readable s.mem ∨ junk ≠ 0) ∧ (e.rotRet ≠ 0 ∨
      isSlotMarkedSuccessful e ≠ 0 ∧ RaisesNone e s ∧ (UpdateFails e s ∨ OtpFails e))

/-- The condition of the second half: when nothing fails, what is to be raised reaches the
RPMB. -/
def Updates (e : Env) (s : State) : Prop :=
  avbSetRootOfTrust e.rot (!unlocked s.mem) (colorOf (unlocked s.mem) e.verify) = 0 →
    e.avbRpUpdate = true → isSlotMarkedSuccessful e ≠ 0 → ¬ UpdateFails e s → ¬ OtpFails e →
    ∀ d, e.data = some d → Readable s.mem → Covered e.write d.rollbackIndexes s

theorem lockState_of_locked {m : Mem} (h : unlocked m = false) (hr : Readable m) :
    m.lockState ≠ 0 := by
  have hcode := (rpmbGetLockState_code m).2 hr
  simp only [unlocked, getLockState, hcode, if_true, decide_eq_false_iff_not] at h
  exact fun h0 => h (by rw [h0]; rfl)

/-- A locked device is stopped when there is a code and `cmd_boot` learns of the lock. -/
theorem cmdBootStops_iff {s : State} {o : Outcome} {junk : UInt32} (h : unlocked s.mem = false)
    (hsame : SameButIndexes s o.state) :
    cmdBootStops o junk ↔ (Readable s.mem ∨ junk ≠ 0) ∧ o.ret ≠ 0 := by
  have hiff : Readable o.state.mem ↔ Readable s.mem := by
    simp only [Readable, hsame.prov, hsame.init]
  simp only [cmdBootStops, rpmbGetLockState_code, hiff, hsame.lock]
  refine and_congr ?_ Iff.rfl
  by_cases hr : Readable s.mem
  · simp [hr, lockState_of_locked h hr]
  · simp only [hr, if_false, false_or]
    exact not_congr (UInt32.toNat_inj (a := junk) (b := 0))

/-- The update of the stored indexes, `none` where it has no slot data. -/
def rpResult (e : Env) (s : State) : Option (UInt32 × State) :=
  if isSlotMarkedSuccessful e = 0 ∨ !e.avbRpUpdate then some (0, s)
  else e.data.map fun d => updateRpCountAvb e.write d.rollbackIndexes maxLocations 0 0 s

/-- The code of `avb_main` after the update of the stored indexes. -/
def finalRet (e : Env) (ret : UInt32) : UInt32 :=
  if ret ≠ 0 then ret
  else if isSlotMarkedSuccessful e = 0 ∨ !e.otpRpUpdate then ret else updateRpCountOtp e

variable {e : Env}

theorem avbMain_of_rot {s : State}
    (h : avbSetRootOfTrust e.rot (!unlocked s.mem) (colorOf (unlocked s.mem) e.verify) = 0) :
    ∃ f : UInt32 × State → Outcome, avbMain e s = (rpResult e s).map f ∧
      ∀ rp, (f rp).ret = finalRet e rp.1 ∧ (f rp).state = rp.2 := by
  refine ⟨_, by simp only [avbMain, h, ne_eq, not_true_eq_false, if_false]; rfl, fun rp => ?_⟩
  by_cases hrp : rp.1 = 0
  · simp only [finalRet, hrp, ne_eq, not_true_eq_false, if_false]
    constructor
    · split <;> split <;> rfl
    · split
      · rfl
      · split <;> rfl
  · simp [finalRet, hrp]

theorem finalRet_ne_zero (hslot : isSlotMarkedSuccessful e ≠ 0) {ret : UInt32} :
    finalRet e ret ≠ 0 ↔ ret ≠ 0 ∨ OtpFails e := by
  by_cases hret : ret = 0
  · by_cases ho : e.otpRpUpdate = true
    · simp [finalRet, OtpFails, hret, hslot, ho]
    · simp [finalRet, OtpFails, hret, ho]
  · simp [finalRet, hret]

/-- **What an update does.** -/
theorem updateRpCountAvb_spec (e : Env) (s : State) (d : SlotData) :
    let r := updateRpCountAvb e.write d.rollbackIndexes maxLocations 0 0 s
    SameButIndexes s r.2 ∧ (r.1 ≠ 0 ↔ d.UpdateFails e s) ∧
      if Readable s.mem then After e.write d.rollbackIndexes s maxLocations r.2.dev else r.2 = s := by
  dsimp only
  by_cases hr : Readable s.mem
  · obtain ⟨hsame, hret, hafter⟩ := @updateRpCountAvb_of_readable e.write
      d.rollbackIndexes s hr maxLocations 0 s (Nat.zero_add maxLocations) rfl
      (fun _ hj => absurd hj (Nat.not_lt_zero _)) after_zero
    refine ⟨hsame, ?_, by rwa [if_pos hr]⟩
    rw [SlotData.UpdateFails, if_pos hr, ne_eq, hret]
    push Not
    exact Iff.rfl
  · obtain ⟨hsame, hnone, hsome⟩ := @updateRpCountAvb_of_not_readable e.write
      d.rollbackIndexes s hr maxLocations 0 0 (by decide)
    refine ⟨by rw [hsame]; exact .refl s, ?_, by rwa [if_neg hr]⟩
    rw [SlotData.UpdateFails, if_neg hr]
    constructor
    · intro hret
      by_contra hno
      push Not at hno
      exact hret (hnone fun j _ hj => hno j (by omega))
    · rintro ⟨i, hi, hne⟩
      exact hsome ⟨i, Nat.zero_le i, by omega, hne⟩

/-- **After the root of trust** a slot that is marked successful is stopped without an index
having been raised. -/
theorem rest_iff {s : State} :
    (∃ rp, rpResult e s = some rp ∧ finalRet e rp.1 ≠ 0 ∧
        ∀ i < 64, storedIndex rp.2 i ≤ storedIndex s i) ↔
      isSlotMarkedSuccessful e ≠ 0 ∧ RaisesNone e s ∧ (UpdateFails e s ∨ OtpFails e) := by
  by_cases hslot : isSlotMarkedSuccessful e = 0
  · simp [rpResult, finalRet, hslot]
  by_cases hrp : e.avbRpUpdate = true
  swap
  · simp [rpResult, hslot, hrp, finalRet_ne_zero hslot, RaisesNone, UpdateFails]
  cases hd : e.data with
  | none => simp [rpResult, hslot, hrp, hd, RaisesNone]
  | some d =>
    obtain ⟨-, hfails, hafter⟩ := updateRpCountAvb_spec e s d
    have hres : rpResult e s =
        some (updateRpCountAvb e.write d.rollbackIndexes maxLocations 0 0 s) := by
      simp [rpResult, hslot, hrp, hd]
    have hraise : (∀ i < 64, storedIndex (updateRpCountAvb e.write d.rollbackIndexes
        maxLocations 0 0 s).2 i ≤ storedIndex s i) ↔ RaisesNone e s := by
      simp only [RaisesNone, hrp, hd, true_implies, Option.some.injEq, exists_eq_left']
      split_ifs at hafter with hr
      · simp only [hr, true_implies]
        exact hafter.notRaised_iff
      · rw [hafter]
        exact iff_of_true (fun _ _ => le_rfl) fun h => absurd h hr
    have hup : UpdateFails e s ↔ d.UpdateFails e s := by simp [UpdateFails, hrp, hd]
    simp only [hres, Option.some.injEq, exists_eq_left', finalRet_ne_zero hslot, hfails, hraise, hup,
      ne_eq, hslot, not_false_eq_true, true_and]
    exact and_comm

/-- What every update keeps: the lock state and whether the tables can be read. -/
theorem rpResult_same {s : State} {rp : UInt32 × State} (h : rpResult e s = some rp) :
    SameButIndexes s rp.2 := by
  rw [rpResult] at h
  split at h
  · cases h
    exact .refl s
  · obtain ⟨d, -, rfl⟩ := Option.map_eq_some_iff.1 h
    exact (updateRpCountAvb_spec e s d).1

/-- **An update that returns 0** has raised the indexes of the RPMB when it is `Covered`. -/
theorem updated_iff {s : State} :
    (∀ o, avbMain e s = some o → o.ret = 0 → e.avbRpUpdate = true →
      isSlotMarkedSuccessful e ≠ 0 → ∃ d, e.data = some d ∧
        ∀ i < maxLocations, d.rollbackIndexes i ≠ 0 →
          (d.rollbackIndexes i).toNat ≤ storedIndex o.state i) ↔ Updates e s := by
  by_cases hrot : avbSetRootOfTrust e.rot (!unlocked s.mem) (colorOf (unlocked s.mem) e.verify) = 0
  swap
  · refine iff_of_true (fun o ho hret => ?_) fun h => absurd h hrot
    simp only [avbMain, ne_eq, hrot, not_false_eq_true, if_true, Option.some.injEq] at ho
    subst ho
    exact absurd hret hrot
  by_cases hrp : e.avbRpUpdate = true
  swap
  · exact iff_of_true (fun _ _ _ h => absurd h hrp) fun _ h => absurd h hrp
  by_cases hslot : isSlotMarkedSuccessful e = 0
  · exact iff_of_true (fun _ _ _ _ h => absurd hslot h) fun _ _ h => absurd hslot h
  obtain ⟨f, hf, hspec⟩ := avbMain_of_rot hrot
  cases hd : e.data with
  | none =>
    refine iff_of_true (fun o ho => ?_) fun _ _ _ _ _ d h => by simp [hd] at h
    simp [hf, rpResult, hslot, hrp, hd] at ho
  | some d =>
    have hres : rpResult e s =
        some (updateRpCountAvb e.write d.rollbackIndexes maxLocations 0 0 s) := by
      simp [rpResult, hslot, hrp, hd]
    have hup : UpdateFails e s ↔ d.UpdateFails e s := by simp [UpdateFails, hrp, hd]
    obtain ⟨-, hfails, hafter⟩ := updateRpCountAvb_spec e s d
    rw [hres, Option.map_some] at hf
    generalize updateRpCountAvb e.write d.rollbackIndexes maxLocations 0 0 s = r at hf hfails hafter
    obtain ⟨hfret, hfstate⟩ := hspec r
    have hzero : (f r).ret = 0 ↔ ¬ UpdateFails e s ∧ ¬ OtpFails e := by
      rw [hfret, hup, ← hfails, ← not_or, ← finalRet_ne_zero hslot, not_not]
    simp only [hf, Option.some.injEq, forall_eq', Updates, hrot, hrp, ne_eq, hslot, not_false_eq_true,
      true_implies, hzero, hd, exists_eq_left', hfstate, and_imp]
    refine forall_congr' fun hno => forall_congr' fun _ => ?_
    rw [hup, SlotData.UpdateFails] at hno
    split_ifs at hno hafter with hr
    · push Not at hno
      simp only [hr, true_implies]
      exact hafter.covered_iff hno
    · push Not at hno
      exact iff_of_true (fun i hi hne => absurd (hno i hi) hne) fun h => absurd h hr

/-- **When verified boot fails closed.**  For every result of the verification, every content of
the RPMB and every answer of the monitor: a locked device whose slot was not accepted is stopped
without an index raised, and a start that returns 0 after an update has left every index the image
uses in the RPMB, exactly when `Stops` and `Updates` hold of the state before. -/
theorem fails_closed_iff (e : Env) (s : State) (junk : UInt32) :
    FailsClosed e s junk ↔ Stops e s junk ∧ Updates e s := by
  have hhalves : FailsClosed e s junk ↔ (unlocked s.mem = false → e.verify ≠ 0 →
      ∃ o, avbMain e s = some o ∧ o.ret ≠ 0 ∧ cmdBootStops o junk ∧
        ∀ i < 64, storedIndex o.state i ≤ storedIndex s i) ∧ Updates e s :=
    ⟨fun h => ⟨h.stops, updated_iff.1 h.updated⟩, fun h => ⟨h.1, updated_iff.2 h.2⟩⟩
  rw [hhalves, Stops]
  refine and_congr_left fun _ => ?_
  by_cases hlock : unlocked s.mem = true
  · simp [hlock]
  by_cases hv : e.verify = 0
  · simp [hv]
  have hlock : unlocked s.mem = false := by simpa using hlock
  simp only [hlock, hv, ne_eq, not_false_eq_true, true_implies, Bool.false_eq_true, false_or]
  have hrotRet : avbSetRootOfTrust e.rot (!unlocked s.mem) (colorOf (unlocked s.mem) e.verify) =
      e.rotRet := by
    rw [hlock]
    rfl
  by_cases hrot : e.rotRet = 0
  · obtain ⟨f, hf, hspec⟩ := avbMain_of_rot (hrotRet.trans hrot)
    have hrest := rest_iff (e := e) (s := s)
    simp only [hrot, not_true_eq_false, false_or]
    rw [← ne_eq, ← hrest]
    constructor
    · rintro ⟨o, ho, hne, hstop, hraise⟩
      rw [hf] at ho
      obtain ⟨rp, hres, rfl⟩ := Option.map_eq_some_iff.1 ho
      obtain ⟨hfret, hfstate⟩ := hspec rp
      have hsame : SameButIndexes s (f rp).state := by
        rw [hfstate]
        exact rpResult_same hres
      rw [hfstate] at hraise
      rw [hfret] at hne
      exact ⟨((cmdBootStops_iff hlock hsame).1 hstop).1, rp, hres, hne, hraise⟩
    · rintro ⟨hknow, rp, hres, hne, hraise⟩
      obtain ⟨hfret, hfstate⟩ := hspec rp
      have hsame : SameButIndexes s (f rp).state := by
        rw [hfstate]
        exact rpResult_same hres
      have hne' : (f rp).ret ≠ 0 := by rwa [hfret]
      refine ⟨f rp, by rw [hf, hres, Option.map_some], hne', ?_, ?_⟩
      · exact (cmdBootStops_iff hlock hsame).2 ⟨hknow, hne'⟩
      · rwa [hfstate]
  · have hmain : avbMain e s = some ⟨e.rotRet, s, colorOf (unlocked s.mem) e.verify, none⟩ := by
      simp only [avbMain, hrotRet, ne_eq, hrot, not_false_eq_true, if_true]
    simp only [hmain, Option.some.injEq, exists_eq_left', hrot, not_false_eq_true, true_or, and_true,
      le_refl, implies_true]
    rw [cmdBootStops_iff hlock (.refl s)]
    simp [hrot]

/-- A slot that fails its verification on a device whose root of trust can be set. -/
def rejectedSlot (avbRpUpdate : Bool) : Env where
  avbRpUpdate := avbRpUpdate
  otpRpUpdate := false
  verify := 3
  data := some ⟨fun i => if i = 2 then 9 else 0, ⟨[], by simp⟩⟩
  rot := ⟨true, true, 1032, 0, fun _ => 0, fun _ _ => 0, fun _ _ => 0, fun _ => 0, fun _ => 0⟩
  abUpdateSupport := false
  abSlotSuccessful := 0
  write _ := Rpmb.writing (.response { request := 0x0300 })
  otpBl1 := 0
  otpEpbl := 0

/-- A locked device with loaded tables. -/
def lockedDevice : State where
  mem := ⟨0x701, 1, 1, fun _ => 0, fun _ => 0, fun _ => 0⟩
  dev _ _ := 0

/-- The same device with a verified slot, whose one write is answered with a failure. -/
def rejectedWrite : Env :=
  { rejectedSlot true with
    verify := 0
    write := fun _ => Rpmb.writing (.response { request := 0x0300, result := 5 }) }

/-- The locked device boots the slot that was not verified, and with the update of the
stored indexes built in the slot's index is stored as well.  And the update of a verified
slot succeeds while the RPMB rejects the write and holds the index it held. -/
theorem rejected_slot_boots :
    unlocked lockedDevice.mem = false ∧
      (avbMain (rejectedSlot false) lockedDevice).map Outcome.ret = some 0 ∧
      (avbMain (rejectedSlot true) lockedDevice).map Outcome.ret = some 0 ∧
      (avbMain (rejectedSlot true) lockedDevice).map (fun o => storedIndex o.state 2) = some 9 ∧
      storedIndex lockedDevice 2 = 0 ∧
      (avbMain rejectedWrite lockedDevice).map (fun o => (o.ret, storedIndex o.state 2)) =
        some (0, 0) ∧ ¬ FailsClosed (rejectedSlot false) lockedDevice 0 ∧
      ¬ FailsClosed rejectedWrite lockedDevice 0 := by
  have hret : (avbMain (rejectedSlot false) lockedDevice).map Outcome.ret = some 0 := by
    decide +kernel
  have hkept : (avbMain rejectedWrite lockedDevice).map
      (fun o => (o.ret, storedIndex o.state 2)) = some (0, 0) := by
    decide +kernel
  refine ⟨by decide +kernel, hret, by decide +kernel, by decide +kernel, by decide +kernel, hkept,
    fun h => ?_, fun h => ?_⟩
  · obtain ⟨o, ho, hne, -⟩ := h.stops (by decide +kernel) (by decide)
    rw [ho, Option.map_some, Option.some.injEq] at hret
    exact hne hret
  · obtain ⟨o, ho, hpair⟩ := Option.map_eq_some_iff.1 hkept
    obtain ⟨hzero, hindex⟩ := Prod.mk.inj hpair
    obtain ⟨d, hd, hle⟩ := h.updated o ho hzero rfl (by decide)
    cases hd
    have h9 := hle 2 (by decide) (by decide)
    rw [hindex] at h9
    exact absurd h9 (by decide)

end Avb
end LittleKernel
