/-
# The calls as a store

The calls of `dev/rpmb.h` after a load.  Each call that changes a table changes it in
memory first and then writes one block (`pending`), and what becomes of the write does
not come back to the table: a write that fails leaves the changed table, and a result
code other than 0 in the response is not looked at.  `store_atomic` says that in the
runs in which every write is carried out, or writes what the block holds already, the
calls make up a store: an error changes nothing, a success is seen by every later
reading, and the tables are those that a load would load.
-/

import LittleKernel.Lib.Machine
import LittleKernel.Rpmb.Loading

namespace LittleKernel
namespace Rpmb

open Memory Bytes Machine

/-- The calls, with the surroundings of the block that they may write. -/
inductive Call
  | getRollbackIndex (loc : ℕ) (out : Bool)
  | setRollbackIndex (loc : ℕ) (v : UInt64) (env : WriteEnv)
  | readPersistentValue (name : Option CString) (bufferSize : ℕ) (outBuffer outNum : Bool)
  | writePersistentValue (name : Option CString) (size : ℕ) (value : Option (ℕ → UInt8))
      (env : WriteEnv)
  | getLockState
  | setLockState (state : UInt32) (buf : ℕ → UInt8) (env : WriteEnv)

/-- One call. -/
def step (s : State) : Call → Option (State × Reply)
  | .getRollbackIndex loc out => some (s, rpmbGetRollbackIndex s.mem loc out)
  | .setRollbackIndex loc v env =>
    let r := rpmbSetRollbackIndex env s loc v
    some (r.2, { code := r.1 })
  | .readPersistentValue name n b o => some (s, rpmbReadPersistentValue s.mem name n b o)
  | .writePersistentValue name n value env =>
    let r := rpmbWritePersistentValue env s name n value
    some (r.2, { code := r.1 })
  | .getLockState => some (s, rpmbGetLockState s.mem)
  | .setLockState state buf env =>
    let r := rpmbSetLockState env s state buf
    some (r.2, { code := r.1 })

/-! ### What the calls are for -/

/-- The store after a call that succeeds.  Every lock state but 0 is 1. -/
def Store.after (g : Store) : Call → Store
  | .setRollbackIndex loc v _ => { g with index := Function.update g.index loc v.toNat }
  | .writePersistentValue (some name) size (some value) _ =>
    { g with value := Function.update g.value name (some (size, window value 0 size)) }
  | .setLockState state _ _ => { g with lock := if state ≠ 0 then 1 else 0 }
  | _ => g

/-- What a store answers to a call that reads. -/
def Store.answer (g : Store) : Call → Option Reply
  | .getRollbackIndex loc out => some (
      if !out then { code := rvRpmbParamNullPointer }
      else if bootRiTableSize ≤ loc then { code := rvRpmbInvalidRollbackIndex }
      else { code := rvSuccess, value := some (g.index loc) })
  | .readPersistentValue none _ _ _ => some { code := rvRpmbParamNullPointer }
  | .readPersistentValue (some name) n b o => some (
      if persistValueLen < n then { code := rvRpmbInvalidParam }
      else if !b || !o then { code := rvRpmbParamNullPointer }
      else
        match g.value name with
        | none => { code := rvRpmbPersistNameNotFound }
        | some (len, data) =>
          if n < len then { code := rvRpmbInvalidPersistDataSize, value := some len }
          else { code := rvSuccess, value := some len, data := data })
  | .getLockState => some { code := rvSuccess, value := some g.lock }
  | _ => none

/-- **The law of the store.**  The store changes by the calls that return `RV_SUCCESS`
only, it is what every reading returns, an error changes neither the memory nor the
device, and the tables are those that a fresh load would load. -/
structure Law (t : Store × State) (c : Call) (o : Reply) (t' : Store × State) : Prop where
  stored : t'.1 = if o.code = rvSuccess then t.1.after c else t.1
  answered : ∀ r, t.1.answer c = some r → o = r
  unchanged : o.code ≠ rvSuccess → t'.2 = t.2
  fresh : Fresh t'.2

/-! ### The block that a call writes -/

/-- The block that a call is about to write, and the memory it has changed by then. -/
structure Pending where
  env : WriteEnv
  mem : Mem
  block : ℕ
  buf : ℕ → UInt8
  off : ℕ

/-- What a call that passes its checks is about to write. -/
def pending (s : State) : Call → Option Pending
  | .setRollbackIndex loc v env =>
    if bootRiTableSize ≤ loc then none
    else
      let table := store64 s.mem.rollbackIndex (8 * loc) v.toNat
      some ⟨env, { s.mem with rollbackIndex := table }, bootRiTableBlock + loc / 32, table, 256 * (loc / 32)⟩
  | .writePersistentValue (some name) size (some value) env =>
    match entryFor s.mem.persistentData name with
    | none => none
    | some i =>
      if size = 0 ∨ persistKeyLen ≤ name.bytes.length ∨ persistValueLen < size then none
      else
        let table := setEntry s.mem.persistentData i name size value
        some ⟨env, { s.mem with persistentData := table }, persistDataBlock + i / 2, table, 256 * (i / 2)⟩
  | .setLockState state buf env =>
    let lock := if state ≠ 0 then 1 else 0
    some ⟨env, { s.mem with lockState := lock }, 0, lockHeader s.mem buf lock, 0⟩
  | _ => none

/-- A call that names a persistent value names an entry: the name is not empty. -/
def Call.Named : Call → Prop
  | .readPersistentValue (some name) _ _ _ => name.bytes ≠ []
  | .writePersistentValue (some name) _ _ _ => name.bytes ≠ []
  | _ => True

/-- The condition on a call: the block that it writes is carried out, or the call changes
nothing and writes what the block holds. -/
def Call.Ok (s : State) (c : Call) : Prop :=
  c.Named ∧ ∀ w, pending s c = some w →
    Applied w.env (addrBase + w.block) w.buf w.off ∨
      w.mem = s.mem ∧ ∀ k < 256, w.buf (w.off + k) = s.dev (addrBase + w.block) k

theorem rpmbUpdateTableBlock_eq (m : Mem) (dev : Device) (env : WriteEnv) (block : ℕ)
    (buf : ℕ → UInt8) (off : ℕ) (h : m.tableInitState ≠ 0) :
    rpmbUpdateTableBlock env ⟨m, dev⟩ block buf off =
      ((rpmbWriteBlock env dev (addrBase + block) 1 buf off).1,
        ⟨m, (rpmbWriteBlock env dev (addrBase + block) 1 buf off).2⟩) := by
  simp [rpmbUpdateTableBlock, h]

variable {s : State} {c : Call} {w : Pending}

/-- A call that is about to write a block has changed the memory, and returns what the
writing returns. -/
theorem step_of_pending (hs : Inv s) (hw : pending s c = some w) :
    step s c = some (⟨w.mem, (rpmbWriteBlock w.env s.dev (addrBase + w.block) 1 w.buf w.off).2⟩,
      { code := (rpmbWriteBlock w.env s.dev (addrBase + w.block) 1 w.buf w.off).1 }) := by
  have hinit : s.mem.tableInitState ≠ 0 := by rw [hs.init]; decide
  cases c with
  | getRollbackIndex | readPersistentValue | getLockState => cases hw
  | setRollbackIndex loc v env =>
    simp only [pending] at hw
    split at hw
    · cases hw
    · rename_i hloc
      cases hw
      simp only [step, rpmbSetRollbackIndex, if_neg hs.prov, if_neg hloc, if_neg hinit]
      rw [rpmbUpdateTableBlock_eq]
      exact hinit
  | writePersistentValue name size value env =>
    cases name with
    | none => cases hw
    | some name =>
      cases value with
      | none => cases hw
      | some value =>
        simp only [pending] at hw
        split at hw
        · cases hw
        · rename_i i hi
          split at hw
          · cases hw
          · rename_i hsize
            push Not at hsize
            cases hw
            simp only [step, rpmbWritePersistentValue, if_neg hs.prov, if_neg hinit,
              if_neg hsize.1, hi, if_neg (Nat.not_le.2 hsize.2.1),
              if_neg (Nat.not_lt.2 hsize.2.2)]
            rw [rpmbUpdateTableBlock_eq]
            exact hinit
  | setLockState state buf env =>
    cases hw
    simp only [step, rpmbSetLockState, if_neg hs.prov]
    rw [rpmbUpdateTableBlock_eq]
    exact hinit

/-- A reading returns what the store answers. -/
theorem step_of_answer (hs : Inv s) (hname : c.Named) {r : Reply}
    (hr : s.mem.store.answer c = some r) : step s c = some (s, r) := by
  have hinit : s.mem.tableInitState ≠ 0 := by rw [hs.init]; decide
  cases c with
  | setRollbackIndex | writePersistentValue | setLockState => cases hr
  | getRollbackIndex loc out =>
    cases hr
    simp only [step, rpmbGetRollbackIndex, if_neg hs.prov, if_neg hinit]
    rfl
  | getLockState =>
    cases hr
    simp only [step, rpmbGetLockState, if_neg hs.prov, if_neg hinit]
    rfl
  | readPersistentValue name n b o =>
    cases name with
    | none =>
      cases hr
      simp only [step, rpmbReadPersistentValue, if_neg hs.prov]
    | some name =>
      cases hr
      have hvalue : s.mem.store.value name =
          (rpmbSearchPersistentKey s.mem.persistentData name).map fun i =>
            (persistLen s.mem.persistentData i, window s.mem.persistentData (128 * i + 64)
              (min (persistLen s.mem.persistentData i) persistValueLen)) :=
        if_neg hname
      simp only [step, rpmbReadPersistentValue, if_neg hs.prov, hvalue]
      split
      · rfl
      · rename_i hn
        split
        · rfl
        · cases rpmbSearchPersistentKey s.mem.persistentData name with
          | none => rfl
          | some i =>
            simp only [Option.map_some]
            split
            · rfl
            · rename_i hlen
              -- the value fits the buffer, so it is not cut off at 64 bytes
              have hmin : min (persistLen s.mem.persistentData i) persistValueLen =
                  persistLen s.mem.persistentData i := Nat.min_eq_left (by omega)
              rw [hmin]

/-- A call that is turned away by its checks returns an error and changes nothing. -/
theorem step_of_not_pending (hs : Inv s) (hw : pending s c = none)
    (hr : s.mem.store.answer c = none) :
    ∃ code, code ≠ rvSuccess ∧ step s c = some (s, { code := code }) := by
  have hinit : s.mem.tableInitState ≠ 0 := by rw [hs.init]; decide
  cases c with
  | getRollbackIndex | getLockState => cases hr
  | readPersistentValue name => cases name <;> cases hr
  | setLockState => cases hw
  | setRollbackIndex loc v env =>
    simp only [pending] at hw
    split at hw
    · rename_i hloc
      refine ⟨rvRpmbInvalidRollbackIndex, by decide, ?_⟩
      simp only [step, rpmbSetRollbackIndex, if_neg hs.prov, if_pos hloc]
    · cases hw
  | writePersistentValue name size value env =>
    cases name with
    | none =>
      refine ⟨rvRpmbParamNullPointer, by decide, ?_⟩
      simp only [step, rpmbWritePersistentValue, if_neg hs.prov, if_neg hinit]
    | some name =>
      cases value with
      | none =>
        refine ⟨rvRpmbParamNullPointer, by decide, ?_⟩
        simp only [step, rpmbWritePersistentValue, if_neg hs.prov, if_neg hinit]
      | some value =>
        simp only [step, rpmbWritePersistentValue, if_neg hs.prov, if_neg hinit]
        by_cases hsize : size = 0
        · exact ⟨rvRpmbInvalidParam, by decide, by simp only [if_pos hsize]⟩
        · simp only [pending] at hw
          split at hw
          · rename_i hi
            exact ⟨rvRpmbPersistNameNotFound, by decide, by simp only [if_neg hsize, hi]⟩
          · rename_i i hi
            simp only [if_neg hsize, hi]
            by_cases hlen : persistKeyLen ≤ name.bytes.length
            · exact ⟨rvRpmbInvalidKeyLen, by decide, by simp only [if_pos hlen]⟩
            · by_cases hval : persistValueLen < size
              · exact ⟨rvRpmbInvalidPersistDataSize, by decide, by
                  simp only [if_neg hlen, if_pos hval]⟩
              · rw [if_neg (by simp only [hsize, hlen, hval, or_self, not_false_eq_true])] at hw
                cases hw

/-- The change that a call makes in memory is the change of the store. -/
theorem pending_store (hs : Inv s) (hname : c.Named)
    (hw : pending s c = some w) : w.mem.store = s.mem.store.after c := by
  cases c with
  | getRollbackIndex | readPersistentValue | getLockState => cases hw
  | setLockState state buf env =>
    cases hw
    rfl
  | setRollbackIndex loc v env =>
    simp only [pending] at hw
    split at hw
    · cases hw
    · cases hw
      have hindex : (fun l => load64 (store64 s.mem.rollbackIndex (8 * loc) v.toNat) (8 * l)) =
          Function.update (fun l => load64 s.mem.rollbackIndex (8 * l)) loc v.toNat := by
        funext l
        rcases eq_or_ne l loc with rfl | hl
        · rw [Function.update_self, load64_store64, Nat.mod_eq_of_lt v.toNat_lt]
        · rw [Function.update_of_ne hl, load64_store64_of_ne (by omega)]
      simp only [Mem.store, Store.after, hindex]
  | writePersistentValue name size value env =>
    cases name with
    | none => cases hw
    | some name =>
      cases value with
      | none => cases hw
      | some value =>
        simp only [pending] at hw
        split at hw
        · cases hw
        · rename_i i hi
          split at hw
          · cases hw
          · rename_i hsize
            push Not at hsize
            cases hw
            have hlen : name.bytes.length ≤ 55 := Nat.le_of_lt_succ hsize.2.1
            have hvalue : valueOf (setEntry s.mem.persistentData i name size value) = _ :=
              setEntry_value hs.keys hname hi hlen hsize.2.2
            simp only [Mem.store, Store.after, hvalue]

/-- **Once the block is written the tables are those of the device again.** -/
theorem pending_inv (hs : Inv s) (hw : pending s c = some w) :
    Inv ⟨w.mem, setBlock s.dev (addrBase + w.block) w.buf w.off⟩ ∧ w.block < 7 := by
  cases c with
  | getRollbackIndex | readPersistentValue | getLockState => cases hw
  | setRollbackIndex loc v env =>
    simp only [pending] at hw
    split at hw
    · cases hw
    · rename_i hloc
      cases hw
      have hb : loc / 32 < 2 := Nat.div_lt_of_lt_mul (Nat.not_le.1 hloc)
      have hblock : addrBase + (bootRiTableBlock + loc / 32) ≠ addrBase := by
        simp only [bootRiTableBlock]
        omega
      refine ⟨⟨hs.prov, hs.init, hs.magic, fun k hk => ?_, ?_, ?_, ?_, hs.keys⟩, ?_⟩
      · exact (congrFun (setBlock_of_ne _ _ hblock.symm) k).trans (hs.header k hk)
      · exact (congrArg (load32 · 252) (setBlock_of_ne _ _ hblock.symm)).trans hs.lock
      · have hout : ∀ a, a / 256 ≠ loc / 32 →
            store64 s.mem.rollbackIndex (8 * loc) v.toNat a = s.mem.rollbackIndex a :=
          fun a ha => store64_of_not_mem (by omega)
        have h := hs.ri.setBlock hout
        rwa [Nat.add_assoc] at h
      · exact hs.persist.setBlock_of_ne _ _ (by
          simp only [bootRiTableBlock, persistDataBlock]
          omega)
      · simp only [bootRiTableBlock]
        omega
  | writePersistentValue name size value env =>
    cases name with
    | none => cases hw
    | some name =>
      cases value with
      | none => cases hw
      | some value =>
        simp only [pending] at hw
        split at hw
        · cases hw
        · rename_i i hi
          split at hw
          · cases hw
          · rename_i hsize
            push Not at hsize
            cases hw
            have hlen : name.bytes.length ≤ 55 := Nat.le_of_lt_succ hsize.2.1
            have hi4 : i < 4 := (entryFor_cases hi).1
            have hblock : addrBase + (persistDataBlock + i / 2) ≠ addrBase := by
              simp only [persistDataBlock]
              omega
            refine ⟨⟨hs.prov, hs.init, hs.magic, fun k hk => ?_, ?_, ?_, ?_, fun j hj => ?_⟩, ?_⟩
            · exact (congrFun (setBlock_of_ne _ _ hblock.symm) k).trans (hs.header k hk)
            · exact (congrArg (load32 · 252) (setBlock_of_ne _ _ hblock.symm)).trans hs.lock
            · exact hs.ri.setBlock_of_ne _ _ (by
                simp only [bootRiTableBlock, persistDataBlock]
                omega)
            · have hout : ∀ a, a / 256 ≠ i / 2 →
                  setEntry s.mem.persistentData i name size value a = s.mem.persistentData a :=
                fun a ha => setEntry_of_not_mem hlen hsize.2.2 (by omega)
              have h := hs.persist.setBlock hout
              rwa [Nat.add_assoc] at h
            · exact (setEntry_of_not_mem hlen hsize.2.2 (by omega)).trans (hs.keys j hj)
            · simp only [persistDataBlock]
              omega
  | setLockState state buf env =>
    cases hw
    have hlock : (if state ≠ 0 then 1 else 0 : ℕ) < 2 ^ 32 := by
      split <;> norm_num
    have hself : ∀ k < 256, setBlock s.dev addrBase
        (lockHeader s.mem buf (if state ≠ 0 then 1 else 0)) 0 addrBase k =
          lockHeader s.mem buf (if state ≠ 0 then 1 else 0) k := fun k hk => by
      rw [setBlock_self _ _ hk, Nat.zero_add]
    refine ⟨⟨hs.prov, hs.init, hs.magic, fun k hk => ?_, ?_, ?_, ?_, hs.keys⟩, by norm_num⟩
    · refine (hself k (by omega)).trans ?_
      rw [lockHeader, store32_of_not_mem (by omega), copy_of_mem (Nat.zero_le k) (by omega),
        Nat.sub_zero, Nat.zero_add]
    · refine (load32_congr fun k _ hk => hself k (by omega)).trans ?_
      rw [lockHeader, load32_store32, Nat.mod_eq_of_lt hlock]
    · exact hs.ri.setBlock_of_ne _ _ (by simp only [bootRiTableBlock]; omega)
    · exact hs.persist.setBlock_of_ne _ _ (by simp only [persistDataBlock]; omega)

/-! ### Runs -/

/-- **One call** that meets the condition obeys the law and keeps the invariant. -/
theorem step_law (hs : Inv s) (hok : c.Ok s) :
    ∃ s' o, step s c = some (s', o) ∧ Law (s.mem.store, s) c o (s'.mem.store, s') ∧ Inv s' := by
  obtain ⟨hname, hok⟩ := hok
  cases hr : s.mem.store.answer c with
  | some r =>
    refine ⟨s, r, step_of_answer hs hname hr, ⟨?_, fun r' hr' => ?_, fun _ => rfl, hs.fresh⟩, hs⟩
    · have hafter : s.mem.store.after c = s.mem.store := by
        cases c with
        | setRollbackIndex | writePersistentValue | setLockState => cases hr
        | getRollbackIndex | readPersistentValue | getLockState => rfl
      simp only [hafter, ite_self]
    · exact Option.some.inj (hr.symm.trans hr')
  | none =>
    cases hw : pending s c with
    | none =>
      obtain ⟨code, hcode, hstep⟩ := step_of_not_pending hs hw hr
      refine ⟨s, _, hstep, ⟨(if_neg hcode).symm, fun r hr' => ?_, fun _ => rfl, hs.fresh⟩, hs⟩
      cases hr.symm.trans hr'
    | some w =>
      have hstore := pending_store hs hname hw
      obtain ⟨hinv, hblock⟩ := pending_inv hs hw
      have haddr : addrBase + w.block < 65536 := by
        simp only [addrBase]
        omega
      rcases hok w hw with happ | ⟨hmem, hdev⟩
      · have hwrite := happ.writeBlock_eq haddr s.dev
        refine ⟨_, _, step_of_pending hs hw, ?_, ?_⟩
        · rw [hwrite]
          refine ⟨?_, fun r hr' => ?_, fun h => absurd rfl h, hinv.fresh⟩
          · rw [if_pos rfl]
            exact hstore
          · cases hr.symm.trans hr'
        · rw [hwrite]
          exact hinv
      · -- the block holds what is written: whatever becomes of the write, nothing changes
        have hsame : (rpmbWriteBlock w.env s.dev (addrBase + w.block) 1 w.buf w.off).2 = s.dev := by
          rcases rpmbWriteBlock_snd w.env s.dev haddr w.buf w.off with h | h
          · exact h
          · rw [h, setBlock_eq hdev]
        rw [hmem] at hstore
        refine ⟨s, { code := (rpmbWriteBlock w.env s.dev (addrBase + w.block) 1 w.buf w.off).1 },
          ?_, ⟨?_, fun r hr' => ?_, fun _ => rfl, hs.fresh⟩, hs⟩
        · rw [step_of_pending hs hw, hsame, hmem]
        · simp only [← hstore, ite_self]
        · cases hr.symm.trans hr'

/-- **The calls make up a store.**  After an honest load of tables whose keys end, every
run of calls that meet the condition obeys the law, and the tables in memory are those
that a fresh load would load from the start on. -/
theorem store_atomic {env : LoadEnv} {s s₁ : State}
    (hload : rpmbLoadBootTable env s = (rvSuccess, s₁)) (hhonest : HonestLoad env s s₁)
    (hkeys : KeysEnd s₁.mem.persistentData) (calls : List Call)
    (hok : Along (fun s c => (step s c).map Prod.fst) Call.Ok s₁ calls) :
    Fresh s₁ ∧ ∃ s' os, trace step s₁ calls = some (s', os) ∧
      Accepts Law (s₁.mem.store, s₁) calls os (s'.mem.store, s') := by
  have hinv := hhonest.inv hload hkeys
  obtain ⟨s', os, htrace, hlaw, -⟩ := @trace_accepted State Call Reply (Store × State) step Law
    Inv (fun s => (s.mem.store, s)) Call.Ok (fun s c hs hc => step_law hs hc) calls s₁ hinv hok
  exact ⟨hinv.fresh, s', os, htrace, hlaw⟩

/-! ### A run, and two that fail -/

/-- A secure monitor that answers at once. -/
def readySmc : Smc := fun _ _ => (rvSuccess, fun _ => 0)

theorem getRpmbHmac_ready (input : List UInt8) :
    getRpmbHmac readySmc input = (rvSuccess, fun _ => 0) := by
  simp [getRpmbHmac, hmacRetry, readySmc, rvSuccess, rvSyncAesBusy]

/-- A device that answers with what it holds. -/
def answering (dev : Device) : ReadEnv where
  random := ⟨0, 7, 9⟩
  device r := .response { request := 0x0400, nonce := r.nonce, data := dev r.address.toNat }
  smc := readySmc

theorem answering_reads (dev : Device) {addr : ℕ} (h : addr < 65536) :
    ReadsBlock (answering dev) dev addr := by
  have hmac : (window (fun _ => (0 : UInt8)) 0 32) = (window (fun _ => 0) 0 32).reverse := by decide
  refine ⟨⟨_, ⟨rfl, rfl⟩, rfl, ?_⟩, ⟨_, ⟨rfl, rfl⟩, ?_, rfl, rfl⟩, ?_⟩
  · exact congrArg Prod.fst (getRpmbHmac_ready _)
  · rw [answering, getRpmbHmac_ready]
    exact hmac
  · rintro p ⟨-, hp⟩ k -
    cases hp
    simp only [readRequest, UInt16.toNat_ofNat']
    rw [Nat.mod_eq_of_lt h]

/-- The surroundings of a write that ends in `reply`. -/
def writing (reply : WriteReply) : WriteEnv where
  random := ⟨0, 7, 9⟩
  counter r := .response { request := 0x0200, nonce := r.nonce }
  frame _ := ⟨readySmc, fun _ => reply⟩

theorem writing_applied (addr : ℕ) (buf : ℕ → UInt8) (off : ℕ) :
    Applied (writing (.response { request := 0x0300 })) addr buf off :=
  ⟨_, ⟨_, ⟨rfl, rfl, rfl⟩, congrArg Prod.fst (getRpmbHmac_ready _), rfl⟩, rfl⟩

/-- A load from a device. -/
def loadFrom (dev : Device) : LoadEnv where
  header := answering dev
  init _ := writing (.response { request := 0x0300 })
  ri _ := answering dev
  persist _ := answering dev

/-- A device as `rpmb_init_table` leaves it, and a memory with nothing loaded. -/
def initialized : State where
  mem := ⟨0x701, 0, 0, fun _ => 0, fun _ => 0, fun _ => 0⟩
  dev a := if a = addrBase then initHeader else fun _ => 0

/-- The state after a load from this device. -/
def start : State := (rpmbLoadBootTable (loadFrom initialized.dev) initialized).2

theorem start_dev : start.dev = initialized.dev := by
  have hread := answering_reads initialized.dev (show addrBase < 65536 by decide)
  have hmagic : HasMagic (loadFrom initialized.dev) := by
    refine ⟨_, ⟨rfl, rfl⟩, ?_⟩
    decide +kernel
  obtain ⟨buf, -, hcheck⟩ := rpmbRiCheckMagic_of_magic (s := initialized) hread hmagic
  have hri : ∀ i < 2, Passes ((loadFrom initialized.dev).ri i) (addrBase + bootRiTableBlock + i) :=
    fun i hi => (answering_reads _ (by simp only [addrBase, bootRiTableBlock]; omega)).1
  have hpersist : ∀ i < 2,
      Passes ((loadFrom initialized.dev).persist i) (addrBase + persistDataBlock + i) :=
    fun i hi => (answering_reads _ (by simp only [addrBase, persistDataBlock]; omega)).1
  rw [start, rpmbLoadBootTable_eq (by decide) ⟨hread.1, .inl hmagic⟩ hri hpersist, loaded, hcheck]

theorem start_honest : HonestLoad (loadFrom initialized.dev) initialized start where
  header := answering_reads _ (by decide)
  init := .inl ⟨_, ⟨rfl, rfl⟩, by decide +kernel⟩
  ri i hi := by
    rw [start_dev]
    exact answering_reads _ (by simp only [addrBase, bootRiTableBlock]; omega)
  persist i hi := by
    rw [start_dev]
    exact answering_reads _ (by simp only [addrBase, persistDataBlock]; omega)

/-- Four calls after such a load: an index is set and read, and the device is unlocked. -/
theorem store_atomic_unlock :
    let calls := [.setRollbackIndex 3 5 (writing (.response { request := 0x0300 })),
      .getRollbackIndex 3 true, .setLockState 0 (fun _ => 9) (writing (.response { request := 0x0300 })),
      .getLockState]
    Fresh start ∧ ∃ s' os, trace step start calls = some (s', os) ∧
      Accepts Law (start.mem.store, start) calls os (s'.mem.store, s') := by
  refine store_atomic (Prod.ext (by decide +kernel) rfl) start_honest ?_ _ ?_
  · unfold KeysEnd
    decide +kernel
  · refine ⟨⟨trivial, fun w hw => .inl ?_⟩, fun _ _ => ⟨⟨trivial, fun w hw => by cases hw⟩,
      fun _ _ => ⟨⟨trivial, fun w hw => .inl ?_⟩, fun _ _ => ⟨⟨trivial, fun w hw => by cases hw⟩,
        fun _ _ => trivial⟩⟩⟩⟩
    · cases hw
      exact writing_applied _ _ _
    · cases hw
      exact writing_applied _ _ _

/-- Index 0 is set to 5, and the result cannot be read. -/
def unreadSet : UInt32 × State := rpmbSetRollbackIndex (writing (.readFails false)) start 0 5

/-- Index 0 is set to 5, and the device answers that it has not written the block. -/
def rejectedSet : UInt32 × State :=
  rpmbSetRollbackIndex (writing (.response { request := 0x0300, result := 5 })) start 0 5

/-- The call that fails has changed the table, and the call whose write the device rejects
succeeds and leaves a table that the device does not hold. -/
theorem failed_write_kept :
    (unreadSet.1 = rvFail ∧ (rpmbGetRollbackIndex start.mem 0 true).value = some 0 ∧
      (rpmbGetRollbackIndex unreadSet.2.mem 0 true).value = some 5) ∧
    rejectedSet.1 = rvSuccess ∧ (rpmbGetRollbackIndex rejectedSet.2.mem 0 true).value = some 5 ∧
      (rpmbGetRollbackIndex
        (rpmbLoadBootTable (loadFrom rejectedSet.2.dev) rejectedSet.2).2.mem 0 true).value =
          some 0 := by
  decide +kernel

end Rpmb
end LittleKernel
