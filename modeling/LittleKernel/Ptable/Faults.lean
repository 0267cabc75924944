/-
# Partition calls on a heap and a device that may fail

`LittleKernel.Ptable.Basic` has the calls of `lib/ptable/ptable.c` on a device whose
transfers succeed.  Here what the heap and the device answer is part of a call:
whether each of the three allocations succeeds, and what an erase and a write
return and leave on the device, which may be anything.

With the answers of a working device the calls are those of
`LittleKernel.Ptable.Basic` (`ptableStepOn_working`).

`ptable_add` and `ptable_remove` change the list and the registered devices before
they write the table, and take nothing back when the write fails:
`failed_change_undone_iff` says exactly when a failed call leaves memory as it was.
-/

import LittleKernel.Ptable.Persist

namespace LittleKernel
namespace Ptable

open Bytes Memory Word

/-- What the heap and the device answer to one call. -/
structure Answers where
  /-- the entry of `ptable_publish` -/
  entry : Bool
  /-- the device of `bio_publish_subdevice` -/
  subdev : Bool
  /-- the buffer of `ptable_write` -/
  buf : Bool
  /-- `bio_erase`: what it leaves on the device and what it returns -/
  erase : Dev → (ℕ → UInt8) → (offset len : ℕ) → (ℕ → UInt8) × ℤ
  /-- `bio_write`, likewise -/
  write : Dev → (ℕ → UInt8) → (offset : ℕ) → List UInt8 → (ℕ → UInt8) × ℤ

variable (d : Device)

/-- Memory is there, and transfers inside the device succeed. -/
def Answers.working : Answers where
  entry := true
  subdev := true
  buf := true
  erase b disk offset len := ((bioErase d b disk offset len).1, (bioErase d b disk offset len).2)
  write b disk offset buf := ((bioWrite d b disk offset buf).1, (bioWrite d b disk offset buf).2)

/-- `bio_publish_subdevice`: the parent is opened before memory is asked for. -/
def bioPublishSubdeviceOn (io : Answers) (bdevs : List Dev) (parentDev subdev : CString)
    (startblock blockCount : ℕ) : Except Err (List Dev) :=
  if (bioOpen d bdevs parentDev).isSome && !io.subdev then .error .noMemory
  else bioPublishSubdevice d bdevs parentDev subdev startblock blockCount

/-- `ptable_publish`.  Without an entry there is nothing to unpublish. -/
def ptablePublishOn (io : Answers) (s : State) (e : Entry) : State × Option Err :=
  match s.bdev with
  | none => (s, some .badState)
  | some b =>
    match publishCheck d b s e with
    | some err => (s, some err)
    | none =>
      if !io.entry then (s, some .noMemory)
      else
        match bioPublishSubdeviceOn d io s.bdevs (b.name d) e.cname
            (u32 (e.offset / d.blockSize)) (u32 (e.length / d.blockSize)) with
        | .error err => ({ s with bdevs := bioUnregister d s.bdevs e.cname }, some err)
        | .ok bdevs => ({ s with bdevs := bdevs, list := pushEntry e s.list }, none)

variable (crc32 : ℕ → List UInt8 → ℕ)

/-- `ptable_write`. -/
def ptableWriteOn (io : Answers) (s : State) : State × Option Err :=
  match s.bdev with
  | none => (s, some .notMounted)
  | some _ =>
    match bioOpen d s.bdevs ptablePartName with
    | none => (s, some .badState)
    | some b =>
      let totalLength := ptableLength s.list.length
      if totalLength > b.totalSize d then (s, some .tooBig)
      else if !io.buf then (s, some .noMemory)
      else
        let buf := tableImage crc32 s.gen s.list
        let s := { s with gen := u32 (s.gen + 1) }
        let erased := if b.geometry d = [] then (s.disk, (b.totalSize d : ℤ))
          else io.erase b s.disk 0 (b.totalSize d)
        -- `BAIL(ERR_IO)` sets the `err` of its block, and the one returned stays `ERR_GENERIC`
        if erased.2 ≠ b.totalSize d then ({ s with disk := erased.1 }, some .generic)
        else
          let written := io.write b erased.1 0 buf
          ({ s with disk := written.1 },
            if written.2 < totalLength then some .io else none)

/-- `ptable_create_default`. -/
def ptableCreateDefaultOn (io : Answers) (s : State) (bdevName : CString) (offset : ℕ) :
    State × Option Err :=
  let s := ptableReset d s
  match bioOpen d s.bdevs bdevName with
  | none => (s, some .notFound)
  | some b =>
    let s := { s with bdev := some b }
    match ptableAllocateAt d s offset (ptableLength 16) with
    | .error err => resetOnError d (s, some err)
    | .ok len =>
      match ptablePublishOn d io s (.make offset len ptablePartName) with
      | (s, some err) => resetOnError d (s, some err)
      | (s, none) => resetOnError d (ptableWriteOn d crc32 io s)

/-- `ptable_remove`. -/
def ptableRemoveOn (io : Answers) (s : State) (name : CString) : State × Option Err :=
  match s.bdev with
  | none => (s, some .notMounted)
  | some _ =>
    if name = ptablePartName then (s, some .notAllowed)
    else if (ptableFind s name).isSome then
      ptableWriteOn d crc32 io { s with
        bdevs := bioUnregister d s.bdevs name
        list := s.list.eraseP fun e => e.cname = name }
    else (s, some .notFound)

/-- `ptable_add`. -/
def ptableAddOn (io : Answers) (s : State) (name : CString) (minLen : ℕ) (allocEnd : Bool) :
    State × Option Err :=
  match s.bdev with
  | none => (s, some .notMounted)
  | some _ =>
    if name.bytes.length > 11 then (s, some .invalidArgs)
    else
      match ptableAllocate d s minLen allocEnd with
      | .error err => (s, some err)
      | .ok (offset, length) =>
        match ptablePublishOn d io s (.make offset length name) with
        | (s, some err) => (s, some err)
        | (s, none) => ptableWriteOn d crc32 io s

/-- A call: the new state and the error, if any. -/
def Act.exec (a : Act) (io : Answers) (s : State) : State × Option Err :=
  match a with
  | .createDefault bdevName offset => ptableCreateDefaultOn d crc32 io s bdevName offset
  | .add name minLen allocEnd => ptableAddOn d crc32 io s name minLen allocEnd
  | .remove name => ptableRemoveOn d crc32 io s name

/-- One call with its answers, whatever it returns. -/
def ptableStepOn (s : State) (a : Act × Answers) : Option State :=
  some (a.1.exec d crc32 a.2 s).1

/-! ### A working device -/

@[simp] theorem bioPublishSubdeviceOn_working (bdevs : List Dev) (parentDev subdev : CString)
    (startblock blockCount : ℕ) :
    bioPublishSubdeviceOn d (.working d) bdevs parentDev subdev startblock blockCount
      = bioPublishSubdevice d bdevs parentDev subdev startblock blockCount := by
  simp [bioPublishSubdeviceOn, Answers.working]

@[simp] theorem ptablePublishOn_working (s : State) (e : Entry) :
    ptablePublishOn d (.working d) s e = ptablePublish d s e := by
  unfold ptablePublishOn ptablePublish
  cases s.bdev with
  | none => rfl
  | some b =>
    dsimp only
    cases publishCheck d b s e with
    | some err => rfl
    | none =>
      simp only [bioPublishSubdeviceOn_working]
      rfl

@[simp] theorem ptableWriteOn_working (s : State) :
    ptableWriteOn d crc32 (.working d) s = ptableWrite d crc32 s := by
  unfold ptableWriteOn ptableWrite
  cases s.bdev with
  | none => rfl
  | some _ =>
    dsimp only
    cases bioOpen d s.bdevs ptablePartName with
    | none => rfl
    | some b =>
      dsimp only
      by_cases hbig : ptableLength s.list.length > b.totalSize d
      · rw [if_pos hbig, if_pos hbig]
      · rw [if_neg hbig, if_neg hbig]
        by_cases hgeo : b.geometry d = [] <;>
          simp [Answers.working, hgeo]

/-- **The calls of a working device** are those of `LittleKernel.Ptable.Basic`. -/
theorem ptableStepOn_working (s : State) (a : Act) :
    ptableStepOn d crc32 s (a, .working d) = ptableStep d crc32 s a := by
  cases a with
  | createDefault bdevName offset =>
    simp only [ptableStepOn, Act.exec, ptableCreateDefaultOn, ptablePublishOn_working,
      ptableWriteOn_working]
    rfl
  | add name minLen allocEnd =>
    simp only [ptableStepOn, Act.exec, ptableAddOn, ptablePublishOn_working,
      ptableWriteOn_working]
    rfl
  | remove name =>
    simp only [ptableStepOn, Act.exec, ptableRemoveOn, ptableWriteOn_working]
    rfl

/-! ### What a failed call leaves -/

/-- A call that fails has left the list, the registered devices and the next
generation as they were, and the device too unless its erase or its write failed:
`ERR_GENERIC` is what is returned for the one and `ERR_IO` for the other. -/
structure Undone (s : State) (r : State × Option Err) : Prop where
  memory : r.2.isSome → r.1.list = s.list ∧ r.1.bdevs = s.bdevs ∧ r.1.gen = s.gen
  disk : ∀ err, r.2 = some err → err ≠ .generic → err ≠ .io → r.1.disk = s.disk

/-- The partition of the table can be opened and holds the table in memory, there is
memory for its image, and the device takes the erase and the write. -/
def TakesTable (io : Answers) (s : State) : Prop :=
  ∃ b, bioOpen d s.bdevs ptablePartName = some b ∧
    ptableLength s.list.length ≤ b.totalSize d ∧ io.buf = true ∧
    let erased := if b.geometry d = [] then (s.disk, (b.totalSize d : ℤ))
      else io.erase b s.disk 0 (b.totalSize d)
    erased.2 = b.totalSize d ∧ (ptableLength s.list.length : ℤ) ≤
      (io.write b erased.1 0 (tableImage crc32 s.gen s.list)).2

variable {d crc32} {s : State} {io : Answers}

/-- `ptable_write` changes the device and the generation only. -/
theorem ptableWriteOn_frame (io : Answers) (s : State) :
    (ptableWriteOn d crc32 io s).1.list = s.list ∧ (ptableWriteOn d crc32 io s).1.bdevs = s.bdevs ∧
      (ptableWriteOn d crc32 io s).1.bdev = s.bdev := by
  unfold ptableWriteOn
  split
  · exact ⟨rfl, rfl, rfl⟩
  split
  · exact ⟨rfl, rfl, rfl⟩
  dsimp only
  split_ifs <;> exact ⟨rfl, rfl, rfl⟩

theorem ptableWriteOn_eq_none_iff (hb : s.bdev.isSome) :
    (ptableWriteOn d crc32 io s).2 = none ↔ TakesTable d crc32 io s := by
  obtain ⟨b₀, hb₀⟩ := Option.isSome_iff_exists.1 hb
  rw [ptableWriteOn, hb₀, TakesTable]
  cases ho : bioOpen d s.bdevs ptablePartName with
  | none => simp
  | some b =>
    dsimp only
    constructor
    · intro h
      by_cases hbig : ptableLength s.list.length > b.totalSize d
      · simp [hbig] at h
      rw [if_neg hbig] at h
      cases hbuf : io.buf with
      | false => simp [hbuf] at h
      | true =>
        rw [hbuf, if_neg (by simp)] at h
        generalize hr : (if b.geometry d = [] then (s.disk, (b.totalSize d : ℤ))
          else io.erase b s.disk 0 (b.totalSize d)) = r at h ⊢
        by_cases he : r.2 = b.totalSize d
        · rw [if_neg (by simpa using he)] at h
          refine ⟨b, rfl, by omega, rfl, ?_⟩
          simp only [hr]
          exact ⟨he, by simpa using h⟩
        · simp [he] at h
    · rintro ⟨b', hb', hfit, hbuf, he, hw⟩
      cases hb'
      rw [if_neg (by omega), if_neg (by simp [hbuf]), if_neg (by simpa using he)]
      exact if_neg (not_lt.2 hw)

/-- When a write that fails has been undone: it must not fail. -/
theorem undone_write_iff {t : State} (hb : s.bdev.isSome) (hl : s.list ≠ t.list) :
    Undone t (ptableWriteOn d crc32 io s) ↔ TakesTable d crc32 io s := by
  rw [← ptableWriteOn_eq_none_iff hb]
  constructor
  · intro h
    by_contra hne
    have := (h.memory (Option.isSome_iff_ne_none.2 hne)).1
    exact hl ((ptableWriteOn_frame io s).1 ▸ this)
  · intro h
    exact ⟨fun hs => by simp [h] at hs, fun err he => by simp [h] at he⟩

/-- The two calls that change a table. -/
inductive Change where
  | add (name : CString) (minLen : ℕ) (allocEnd : Bool)
  | remove (name : CString)

variable (d crc32)

/-- A change: the new state and the error, if any. -/
def Change.exec (c : Change) (io : Answers) (s : State) : State × Option Err :=
  match c with
  | .add name minLen allocEnd => ptableAddOn d crc32 io s name minLen allocEnd
  | .remove name => ptableRemoveOn d crc32 io s name

/-- No device has the name of an entry that cannot be published, and the table can be
written once the entry is published. -/
def Addable (io : Answers) (s : State) (b : Dev) (e : Entry) : Prop :=
  match bioPublishSubdeviceOn d io s.bdevs (b.name d) e.cname
      (u32 (e.offset / d.blockSize)) (u32 (e.length / d.blockSize)) with
  | .error _ => ∀ x ∈ s.bdevs, x.name d ≠ e.cname
  | .ok bdevs => TakesTable d crc32 io { s with bdevs := bdevs, list := pushEntry e s.list }

/-- The condition under which a failed change is undone: a change that gets as far as
the registered devices must not fail any more. -/
def Change.Undoable (c : Change) (io : Answers) (s : State) : Prop :=
  match c with
  | .add name minLen allocEnd =>
    ∀ b offset length, s.bdev = some b → name.bytes.length ≤ 11 →
      ptableAllocate d s minLen allocEnd = .ok (offset, length) →
      publishCheck d b s (.make offset length name) = none → io.entry = true →
      Addable d crc32 io s b (.make offset length name)
  | .remove name =>
    s.bdev.isSome → name ≠ ptablePartName → (ptableFind s name).isSome →
      TakesTable d crc32 io { s with
        bdevs := bioUnregister d s.bdevs name
        list := s.list.eraseP fun e => e.cname = name }

variable {d crc32}

theorem undone_self (err : Err) : Undone s (s, some err) :=
  ⟨fun _ => ⟨rfl, rfl, rfl⟩, fun _ _ _ _ => rfl⟩

theorem pushEntry_ne (e : Entry) (l : List Entry) : pushEntry e l ≠ l := by
  intro h
  have := (perm_pushEntry e l).length_eq
  rw [h] at this
  simp at this

/-- Publishing and writing. -/
theorem undone_publish_iff {b : Dev} {e : Entry} (hb : s.bdev = some b) :
    Undone s (match ptablePublishOn d io s e with
      | (s, some err) => (s, some err)
      | (s, none) => ptableWriteOn d crc32 io s) ↔
    (publishCheck d b s e = none → io.entry = true → Addable d crc32 io s b e) := by
  unfold ptablePublishOn Addable
  rw [hb]
  dsimp only
  cases hchk : publishCheck d b s e with
  | some err =>
    dsimp only
    exact iff_of_true (undone_self err) (by simp)
  | none =>
    dsimp only
    cases hent : io.entry with
    | false => exact iff_of_true (undone_self .noMemory) (by simp)
    | true =>
      rw [if_neg (by simp)]
      cases bioPublishSubdeviceOn d io s.bdevs (b.name d) e.cname
          (u32 (e.offset / d.blockSize)) (u32 (e.length / d.blockSize)) with
      | error err =>
        dsimp only
        simp only [forall_const]
        constructor
        · intro h x hx
          have := (h.memory rfl).2.1
          simp only [bioUnregister, List.eraseP_eq_self_iff, decide_eq_true_eq] at this
          exact this x hx
        · intro h
          refine ⟨fun _ => ⟨rfl, ?_, rfl⟩, fun _ _ _ _ => rfl⟩
          simpa [bioUnregister, List.eraseP_eq_self_iff] using h
      | ok bdevs =>
        dsimp only
        simp only [forall_const]
        exact undone_write_iff (by simp) (pushEntry_ne e s.list)

/-- **When a failed change is undone.**  `ptable_add` or `ptable_remove` on any table,
with any answers of the heap and the device, leaves the list, the registered devices
and the next generation as they were whenever it returns an error, and the device
unless the error is that of an erase or a write, if and only if the change cannot
fail once it has touched the registered devices: the table it has changed can be
written, and an entry that cannot be published shares its name with no device. -/
theorem failed_change_undone_iff (d : Device) (crc32 : ℕ → List UInt8 → ℕ) (s : State)
    (c : Change) (io : Answers) :
    Undone s (c.exec d crc32 io s) ↔ c.Undoable d crc32 io s := by
  cases c with
  | add name minLen allocEnd =>
    rw [Change.exec, Change.Undoable, ptableAddOn]
    cases hb : s.bdev with
    | none => exact iff_of_true (undone_self .notMounted) (by simp)
    | some b =>
      dsimp only
      by_cases hlen : name.bytes.length > 11
      · rw [if_pos hlen]
        exact iff_of_true (undone_self .invalidArgs) fun _ _ _ _ h => by omega
      · rw [if_neg hlen]
        cases ha : ptableAllocate d s minLen allocEnd with
        | error err => exact iff_of_true (undone_self err) (by simp)
        | ok r =>
          obtain ⟨offset, length⟩ := r
          dsimp only
          rw [undone_publish_iff hb]
          constructor
          · rintro h b' offset' length' hb' - ha'
            cases hb'
            obtain ⟨rfl, rfl⟩ := Prod.mk.inj (Except.ok.inj ha')
            exact h
          · exact fun h => h b offset length rfl (by omega) rfl
  | remove name =>
    rw [Change.exec, Change.Undoable, ptableRemoveOn]
    cases hb : s.bdev with
    | none => exact iff_of_true (undone_self .notMounted) (by simp)
    | some b =>
      dsimp only
      by_cases hpt : name = ptablePartName
      · rw [if_pos hpt]
        exact iff_of_true (undone_self .notAllowed) fun _ h => absurd hpt h
      · rw [if_neg hpt]
        by_cases hf : (ptableFind s name).isSome
        · rw [if_pos hf]
          obtain ⟨x, hx, hxn⟩ := (ptableFind_isSome_iff s name).1 hf
          rw [undone_write_iff (by simp) ?_]
          · simp only [Option.isSome_some, forall_const]
            exact ⟨fun h _ _ => h, fun h => h hpt hf⟩
          · intro h
            exact List.eraseP_eq_self_iff.1 h x hx (by simpa using hxn)
        · rw [if_neg hf]
          exact iff_of_true (undone_self .notFound) fun _ _ h => absurd h hf

/-- A device that fails every write and leaves zeros where it wrote. -/
def Answers.writeFails (d : Device) : Answers where
  entry := true
  subdev := true
  buf := true
  erase := (Answers.working d).erase
  write _ disk offset buf := (store disk offset (List.replicate buf.length 0), -1)

/-- **A change not undone.**  A new table and a partition that cannot be written:
`ptable_add` fails and the partition is in the list, published, and the next
generation is another. -/
theorem failed_add_stays :
    ∃ s, Machine.run (ptableStepOn flash256 fun _ _ => 0) (.init fun _ => 0)
        [(.createDefault flash256.name 0, .working flash256)] = some s ∧
      ¬ Undone s ((Change.add (letter 0) 256 false).exec flash256 (fun _ _ => 0)
        (.writeFails flash256) s) := by
  refine ⟨_, rfl, fun h => ?_⟩
  exact absurd (h.memory (by decide +kernel)).2.2 (by decide +kernel)

end Ptable
end LittleKernel
