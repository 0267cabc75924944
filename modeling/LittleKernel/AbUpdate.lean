/-
# The A/B slots

`platform/exynos9630/ab_update/ab_update.c`: `ab_update_slot_info`, `ab_set_active`,
`ab_set_active_bootloader`, `ab_update_slot_info_bootloader` and `ab_current_slot`, and
the part of `cmd_boot` (`platform/exynos9630/boot/cmd_boot.c`) that calls the first and
the last of them.

The state is the slot record stored in the partition `slotinfo`, which every call reads
and writes as a whole.  `reserved` and the rest of the partition are read and written
back unchanged and are left out.  The booted system does one thing: it sets
`boot_successful` of the slot it runs from, or it does not.

A record is in one of two shapes (`Record.Inv`): one slot is active and that slot is
bootable, or no slot is active and none is bootable.  `ab_slots` reads the rest off
that: which slot is booted, what a boot costs, and that a run of boots falls back at
most once.
-/

import Mathlib.Data.Nat.Basic
import Mathlib.Data.List.Count

namespace LittleKernel
namespace AbUpdate

/-- `ExynosSlotInfo`. -/
structure SlotInfo where
  magic : List UInt8
  bootable : UInt8
  isActive : UInt8
  bootSuccessful : UInt8
  triesRemaining : UInt8
  deriving DecidableEq

/-- `AB_SLOT_A` and `AB_SLOT_B`. -/
inductive Slot
  | a
  | b
  deriving DecidableEq

/-- `1 - slot`. -/
def Slot.other : Slot → Slot
  | .a => .b
  | .b => .a

/-- The slot record. -/
structure Record where
  a : SlotInfo
  b : SlotInfo
  deriving DecidableEq

/-- The negative values that `ab_update_slot_info` returns. -/
inductive Error
  | invalidMagic
  | noBootableSlot
  | slotAllActive
  | slotAllInactive
  | unbootableSlot
  deriving DecidableEq

/-- How `ab_update_slot_info` ends: it returns, or it resets the machine. -/
inductive Outcome
  | returns (ret : Option Error)
  | resets
  deriving DecidableEq

/-- The four bytes `EXBC`. -/
def exbc : List UInt8 := [0x45, 0x58, 0x42, 0x43]

/-- `si + slot`. -/
def Record.slot (r : Record) : Slot → SlotInfo
  | .a => r.a
  | .b => r.b

section Update

/-- The branch of `ab_update_slot_info` for one active slot, which the source has twice. -/
def tryActive (active inactive : SlotInfo) : Outcome × SlotInfo × SlotInfo :=
  if active.bootable = 1 then
    if active.bootable = 1 ∧ active.bootSuccessful = 0 then
      if active.triesRemaining = 0 then
        let active := { active with bootable := 0, isActive := 0 }
        if inactive.bootable = 1 then (.resets, active, { inactive with isActive := 1 })
        else (.returns (some .noBootableSlot), active, inactive)
      else
        (.returns none, { active with triesRemaining := active.triesRemaining - 1 }, inactive)
    else (.returns none, active, inactive)
  else (.returns (some .unbootableSlot), active, inactive)

/-- `ab_update_slot_info`.  All its paths write the record back. -/
def abUpdateSlotInfo (r : Record) : Outcome × Record :=
  if r.a.magic ≠ exbc ∨ r.b.magic ≠ exbc then (.returns (some .invalidMagic), r)
  else if r.a.isActive = 1 ∧ r.b.isActive = 0 then
    let (o, a, b) := tryActive r.a r.b
    (o, ⟨a, b⟩)
  else if r.a.isActive = 0 ∧ r.b.isActive = 1 then
    let (o, b, a) := tryActive r.b r.a
    (o, ⟨a, b⟩)
  else if r.a.isActive = 1 ∧ r.b.isActive = 1 then (.returns (some .slotAllActive), r)
  else (.returns (some .slotAllInactive), r)

/-- `ab_current_slot`. -/
def abCurrentSlot (r : Record) : Slot := if r.a.isActive = 1 then .a else .b

/-- The record with `slot` active and the other slot's `bootable` and `tries_remaining`
as given: the common part of the two functions below. -/
def activate (slot : Slot) (bootable tries : UInt8) : Record :=
  let this : SlotInfo := ⟨exbc, 1, 1, 0, 7⟩
  let other : SlotInfo := ⟨exbc, bootable, 0, 0, tries⟩
  match slot with
  | .a => ⟨this, other⟩
  | .b => ⟨other, this⟩

/-- `ab_set_active`. -/
def abSetActive (slot : Slot) : Record := activate slot 1 7

/-- `ab_set_active_bootloader`. -/
def abSetActiveBootloader (slot : Slot) : Record := activate slot 0 0

/-- The start blocks of `bootloader_a` and `bootloader_b`. -/
structure Bootloaders where
  startA : ℕ
  startB : ℕ

/-- `ab_update_slot_info_bootloader`, with `bl1_info.epbl_start` as the ROM code left it. -/
def abUpdateSlotInfoBootloader (l : Bootloaders) (epblStart : ℕ) (r : Record) :
    Option Error × Record :=
  if r.a.magic ≠ exbc ∨ r.b.magic ≠ exbc then (some .invalidMagic, r)
  else if r.a.isActive = 1 ∧ r.b.isActive = 0 then
    (none, if epblStart ≠ l.startA then abSetActiveBootloader .b else r)
  else if r.a.isActive = 0 ∧ r.b.isActive = 1 then
    (none, if epblStart ≠ l.startB then abSetActiveBootloader .a else r)
  else if r.a.isActive = 1 ∧ r.b.isActive = 1 then (some .slotAllActive, r)
  else (some .slotAllInactive, r)

/-- What a boot comes to. -/
inductive Attempt
  | boots (slot : Slot)
  | fallsBack
  | reports (e : Error)
  deriving DecidableEq

/-- `cmd_boot` up to `load_boot_images`: a negative value leads to fastboot, else the
slot that `ab_current_slot` names is booted. -/
def cmdBoot (r : Record) : Attempt × Record :=
  match abUpdateSlotInfo r with
  | (.resets, r') => (.fallsBack, r')
  | (.returns (some e), r') => (.reports e, r')
  | (.returns none, r') => (.boots (abCurrentSlot r'), r')

/-- The booted system marks the slot it runs from. -/
def markSuccessful (slot : Slot) (r : Record) : Record :=
  match slot with
  | .a => { r with a := { r.a with bootSuccessful := 1 } }
  | .b => { r with b := { r.b with bootSuccessful := 1 } }

/-- What happens to the record: a boot, after which the system that comes up marks its
slot or not, and the two calls from fastboot and from the first boot stage. -/
inductive Op
  | boot (success : Bool)
  | setActive (slot : Slot)
  | updateBootloader (epblStart : ℕ)
  deriving DecidableEq

def step (l : Bootloaders) (r : Record) : Op → Record
  | .boot success =>
    match cmdBoot r with
    | (.boots slot, r') => if success then markSuccessful slot r' else r'
    | (_, r') => r'
  | .setActive slot => abSetActive slot
  | .updateBootloader epblStart => (abUpdateSlotInfoBootloader l epblStart r).2

/-- `n` boots in a row, none of which is marked: what they come to and the record after
them. -/
def bootRun : ℕ → Record → List Attempt × Record
  | 0, r => ([], r)
  | n + 1, r => ((cmdBoot r).1 :: (bootRun n (cmdBoot r).2).1, (bootRun n (cmdBoot r).2).2)

end Update

section Spec

/-- Exactly one slot is active. -/
def Record.OneActive (r : Record) : Prop :=
  (r.a.isActive = 1 ∧ r.b.isActive = 0) ∨ (r.a.isActive = 0 ∧ r.b.isActive = 1)

instance (r : Record) : Decidable r.OneActive := inferInstanceAs (Decidable (_ ∨ _))

/-- A slot record with exactly one active slot, which is bootable. -/
structure Record.Valid (r : Record) : Prop where
  magic : r.a.magic = exbc ∧ r.b.magic = exbc
  oneActive : r.OneActive
  bootable : (r.slot (abCurrentSlot r)).bootable = 1

/-- The tries that remain on both slots. -/
def Record.tries (r : Record) : ℕ := r.a.triesRemaining.toNat + r.b.triesRemaining.toNat

/-- What holds of a stored record and of the boots from it. -/
structure Sound (r : Record) : Prop where
  /-- One slot is active as long as one is bootable. -/
  oneActive : r.a.bootable = 1 ∨ r.b.bootable = 1 → r.OneActive
  /-- The slot that is booted is bootable, before the boot and after it. -/
  bootsBootable : ∀ slot r', cmdBoot r = (.boots slot, r') →
    (r.slot slot).bootable = 1 ∧ (r'.slot slot).bootable = 1
  /-- While the active slot is not marked, every boot that neither falls back nor
  reports takes one try. -/
  triesDrop : (r.slot (abCurrentSlot r)).bootSuccessful = 0 → ∀ n,
    (∀ o ∈ (bootRun n r).1, ∃ slot, o = .boots slot) → (bootRun n r).2.tries + n = r.tries
  /-- A bootable slot that is marked is booted again, and nothing is counted. -/
  bootsMarked : (r.slot (abCurrentSlot r)).bootable = 1 →
    (r.slot (abCurrentSlot r)).bootSuccessful ≠ 0 → cmdBoot r = (.boots (abCurrentSlot r), r)
  /-- A run of boots falls back at most once. -/
  fallsBackOnce : ∀ n, (bootRun n r).1.count .fallsBack ≤ 1
  /-- While no slot is marked, boots come to a report and stay there. -/
  givesUp : r.a.bootSuccessful = 0 → r.b.bootSuccessful = 0 → ∀ n, r.tries + 2 ≤ n →
    ∃ e, (cmdBoot (bootRun n r).2).1 = .reports e

end Spec

section Shapes

/-- The record with `x` at `slot` and `y` at the other slot. -/
def pack (slot : Slot) (x y : SlotInfo) : Record :=
  match slot with
  | .a => ⟨x, y⟩
  | .b => ⟨y, x⟩

/-- One active slot: `x` is, `y` is not, and `x` is bootable. -/
structure Alive (x y : SlotInfo) : Prop where
  magic : x.magic = exbc ∧ y.magic = exbc
  active : x.isActive = 1 ∧ y.isActive = 0
  bootable : x.bootable = 1

/-- No active slot, and none that is bootable. -/
structure Dead (x y : SlotInfo) : Prop where
  magic : x.magic = exbc ∧ y.magic = exbc
  inactive : x.isActive = 0 ∧ y.isActive = 0
  unbootable : x.bootable ≠ 1 ∧ y.bootable ≠ 1

/-- **The invariant.** -/
def Record.Inv (r : Record) : Prop := ∃ slot x y, r = pack slot x y ∧ (Alive x y ∨ Dead x y)

variable {slot : Slot} {x y : SlotInfo} {r : Record}

@[simp] theorem pack_slot (slot : Slot) (x y : SlotInfo) : (pack slot x y).slot slot = x := by
  cases slot <;> rfl

@[simp] theorem tries_pack (slot : Slot) (x y : SlotInfo) :
    (pack slot x y).tries = x.triesRemaining.toNat + y.triesRemaining.toNat := by
  cases slot
  · rfl
  · exact Nat.add_comm ..

theorem abCurrentSlot_pack (h : x.isActive = 1 ∧ y.isActive = 0) :
    abCurrentSlot (pack slot x y) = slot := by
  cases slot <;> simp [pack, abCurrentSlot, h.1, h.2]

theorem unmarked_pack_iff :
    (pack slot x y).a.bootSuccessful = 0 ∧ (pack slot x y).b.bootSuccessful = 0 ↔
      x.bootSuccessful = 0 ∧ y.bootSuccessful = 0 := by
  cases slot
  · exact Iff.rfl
  · exact and_comm

theorem Alive.oneActive (h : Alive x y) : (pack slot x y).OneActive := by
  cases slot
  · exact .inl h.active
  · exact .inr h.active.symm

/-- A start record is alive. -/
theorem Record.Valid.inv (h : r.Valid) : r.Inv := by
  obtain ⟨hm, ha, hb⟩ := h
  rcases ha with ha | ha
  · refine ⟨.a, r.a, r.b, rfl, .inl ⟨hm, ha, ?_⟩⟩
    simpa [abCurrentSlot, ha.1, Record.slot] using hb
  · refine ⟨.b, r.b, r.a, rfl, .inl ⟨hm.symm, ha.symm, ?_⟩⟩
    simpa [abCurrentSlot, ha.1, Record.slot] using hb

/-- **What a boot does** when one slot is active: a marked slot is booted and nothing
changes, an unmarked one pays a try, and one that has no tries left gives way. -/
theorem cmdBoot_alive (slot : Slot) (h : Alive x y) :
    (x.bootSuccessful ≠ 0 ∧ cmdBoot (pack slot x y) = (.boots slot, pack slot x y)) ∨
    (x.bootSuccessful = 0 ∧ x.triesRemaining ≠ 0 ∧ cmdBoot (pack slot x y) =
      (.boots slot, pack slot { x with triesRemaining := x.triesRemaining - 1 } y)) ∨
    (x.bootSuccessful = 0 ∧ x.triesRemaining = 0 ∧ y.bootable = 1 ∧ cmdBoot (pack slot x y) =
      (.fallsBack, pack slot.other { y with isActive := 1 }
        { x with bootable := 0, isActive := 0 })) ∨
    (x.bootSuccessful = 0 ∧ x.triesRemaining = 0 ∧ y.bootable ≠ 1 ∧ cmdBoot (pack slot x y) =
      (.reports .noBootableSlot, pack slot { x with bootable := 0, isActive := 0 } y)) := by
  have hcur : ∀ {x' : SlotInfo}, x'.isActive = 1 → abCurrentSlot (pack slot x' y) = slot :=
    fun hx => abCurrentSlot_pack ⟨hx, h.active.2⟩
  have hupdate : abUpdateSlotInfo (pack slot x y) =
      ((tryActive x y).1, pack slot (tryActive x y).2.1 (tryActive x y).2.2) := by
    cases slot <;> simp [abUpdateSlotInfo, pack, h.magic, h.active]
  rw [cmdBoot, hupdate]
  by_cases hs : x.bootSuccessful = 0
  · by_cases ht : x.triesRemaining = 0
    · by_cases hy : y.bootable = 1
      · simp [tryActive, h.bootable, hs, ht, hy, Slot.other]
        cases slot <;> rfl
      · simp [tryActive, h.bootable, hs, ht, hy]
    · refine .inr (.inl ⟨hs, ht, ?_⟩)
      simp only [tryActive, h.bootable, hs, ht, and_self, if_true, if_false]
      exact congrArg (fun s => (Attempt.boots s, _)) (hcur h.active.1)
  · refine .inl ⟨hs, ?_⟩
    simp only [tryActive, h.bootable, hs, and_false, if_true, if_false]
    exact congrArg (fun s => (Attempt.boots s, _)) (hcur h.active.1)

theorem Alive.fallBack (h : Alive x y) (hy : y.bootable = 1) :
    Alive { y with isActive := 1 } { x with bootable := 0, isActive := 0 } :=
  ⟨h.magic.symm, ⟨rfl, rfl⟩, hy⟩

theorem Alive.giveUp (h : Alive x y) (hy : y.bootable ≠ 1) :
    Dead { x with bootable := 0, isActive := 0 } y :=
  ⟨h.magic, ⟨rfl, h.active.2⟩, ⟨by simp, hy⟩⟩

theorem Alive.spend (h : Alive x y) (t : UInt8) : Alive { x with triesRemaining := t } y :=
  ⟨h.magic, h.active, h.bootable⟩

theorem cmdBoot_dead (h : Dead x y) :
    cmdBoot (pack slot x y) = (.reports .slotAllInactive, pack slot x y) := by
  have hupdate : abUpdateSlotInfo (pack slot x y) =
      (.returns (some .slotAllInactive), pack slot x y) := by
    cases slot <;> simp [abUpdateSlotInfo, pack, h.magic, h.inactive]
  rw [cmdBoot, hupdate]

end Shapes

section Runs

variable {slot : Slot} {x y : SlotInfo} {r : Record}

theorem toNat_pred {t : UInt8} (h : t ≠ 0) : (t - 1).toNat + 1 = t.toNat := by
  have hpos : 1 ≤ t.toNat := Nat.pos_of_ne_zero fun e => h (UInt8.toNat_inj.1 e)
  have hle : (1 : UInt8) ≤ t := UInt8.le_iff_toNat_le.2 hpos
  rw [UInt8.toNat_sub_of_le _ _ hle]
  exact Nat.sub_add_cancel hpos

theorem Record.Inv.cmdBoot (h : r.Inv) : (cmdBoot r).2.Inv := by
  obtain ⟨slot, x, y, rfl, h | h⟩ := h
  · rcases cmdBoot_alive slot h with
      ⟨-, hb⟩ | ⟨-, -, hb⟩ | ⟨-, -, hy, hb⟩ | ⟨-, -, hy, hb⟩
    · exact hb ▸ ⟨slot, x, y, rfl, .inl h⟩
    · exact hb ▸ ⟨slot, _, y, rfl, .inl (h.spend _)⟩
    · exact hb ▸ ⟨slot.other, _, _, rfl, .inl (h.fallBack hy)⟩
    · exact hb ▸ ⟨slot, _, y, rfl, .inr (h.giveUp hy)⟩
  · rw [cmdBoot_dead h]
    exact ⟨slot, x, y, rfl, .inr h⟩

theorem inv_activate (slot : Slot) (bootable tries : UInt8) : (activate slot bootable tries).Inv := by
  refine ⟨slot, ⟨exbc, 1, 1, 0, 7⟩, ⟨exbc, bootable, 0, 0, tries⟩, ?_,
    .inl ⟨⟨rfl, rfl⟩, ⟨rfl, rfl⟩, rfl⟩⟩
  cases slot <;> rfl

/-- The mark of success is not part of the invariant. -/
theorem Record.Inv.markSuccessful (h : r.Inv) (slot : Slot) : (markSuccessful slot r).Inv := by
  obtain ⟨slot', x, y, rfl, h⟩ := h
  by_cases he : slot = slot'
  · subst he
    refine ⟨slot, { x with bootSuccessful := 1 }, y, by cases slot <;> rfl, ?_⟩
    rcases h with h | h
    · exact .inl ⟨h.magic, h.active, h.bootable⟩
    · exact .inr ⟨h.magic, h.inactive, h.unbootable⟩
  · refine ⟨slot', x, { y with bootSuccessful := 1 },
      by cases slot <;> cases slot' <;> simp_all [pack, AbUpdate.markSuccessful], ?_⟩
    rcases h with h | h
    · exact .inl ⟨h.magic, h.active, h.bootable⟩
    · exact .inr ⟨h.magic, h.inactive, h.unbootable⟩

theorem Record.Inv.step (h : r.Inv) (l : Bootloaders) (op : Op) : (step l r op).Inv := by
  cases op with
  | boot success =>
    have hboot := h.cmdBoot
    simp only [AbUpdate.step]
    cases hc : AbUpdate.cmdBoot r with
    | mk o r' =>
      rw [hc] at hboot
      cases o with
      | boots slot =>
        cases success
        · exact hboot
        · exact hboot.markSuccessful slot
      | fallsBack => exact hboot
      | reports e => exact hboot
  | setActive slot => exact inv_activate slot 1 7
  | updateBootloader epblStart =>
    simp only [AbUpdate.step, abUpdateSlotInfoBootloader]
    split_ifs
    · exact h
    · exact inv_activate .b 0 0
    · exact h
    · exact inv_activate .a 0 0
    all_goals exact h

theorem inv_of_run (l : Bootloaders) : ∀ (ops : List Op) {r : Record}, r.Inv →
    (ops.foldl (step l) r).Inv := by
  intro ops
  induction ops with
  | nil => exact fun h => h
  | cons op ops ih => exact fun h => ih (h.step l op)

/-- From a record with no bootable slot every boot reports. -/
theorem bootRun_dead (h : Dead x y) (n : ℕ) : (bootRun n (pack slot x y)).2 = pack slot x y ∧
    (bootRun n (pack slot x y)).1.count .fallsBack = 0 := by
  induction n with
  | zero => exact ⟨rfl, rfl⟩
  | succ n ih => simpa [bootRun, cmdBoot_dead h] using ih

/-- **No way back.**  A run of boots falls back only to a slot that is bootable, and
leaves one that no longer is. -/
theorem count_fallsBack (n : ℕ) : ∀ (slot : Slot) {x y : SlotInfo}, Alive x y →
    (bootRun n (pack slot x y)).1.count .fallsBack ≤ if y.bootable = 1 then 1 else 0 := by
  induction n with
  | zero => exact fun _ _ _ _ => Nat.zero_le _
  | succ n ih =>
    intro slot x y h
    rcases cmdBoot_alive slot h with
      ⟨-, hb⟩ | ⟨-, -, hb⟩ | ⟨-, -, hy, hb⟩ | ⟨-, -, hy, hb⟩
    · simpa [bootRun, hb] using ih slot h
    · simpa [bootRun, hb] using ih slot (h.spend _)
    · simpa [bootRun, hb, hy] using ih slot.other (h.fallBack hy)
    · simpa [bootRun, hb, hy] using (bootRun_dead (h.giveUp hy) n).2

/-- **Every boot of an unmarked slot takes a try.** -/
theorem tries_bootRun (n : ℕ) : ∀ {x : SlotInfo}, Alive x y → x.bootSuccessful = 0 →
    (∀ o ∈ (bootRun n (pack slot x y)).1, ∃ s, o = .boots s) →
    (bootRun n (pack slot x y)).2.tries + n = (pack slot x y).tries := by
  induction n with
  | zero => exact fun _ _ _ => rfl
  | succ n ih =>
    intro x h hs hall
    obtain ⟨s, hfirst⟩ := hall (cmdBoot (pack slot x y)).1 (by simp [bootRun])
    rcases cmdBoot_alive slot h with
      ⟨hs', -⟩ | ⟨-, ht, hb⟩ | ⟨-, -, -, hb⟩ | ⟨-, -, -, hb⟩
    · exact absurd hs hs'
    · simp only [bootRun, hb] at hall ⊢
      have hrest := ih (h.spend (x.triesRemaining - 1)) hs fun o ho => hall o (List.mem_cons_of_mem _ ho)
      have hpred := toNat_pred ht
      simp only [tries_pack] at hrest ⊢
      omega
    · simp [hb] at hfirst
    · simp [hb] at hfirst

/-- **Unmarked slots run out of tries.** -/
theorem bootRun_reports (n : ℕ) : ∀ {slot : Slot} {x y : SlotInfo}, Alive x y →
    x.bootSuccessful = 0 → y.bootSuccessful = 0 →
    (pack slot x y).tries + (if y.bootable = 1 then 2 else 1) ≤ n →
    ∃ e, (cmdBoot (bootRun n (pack slot x y)).2).1 = .reports e := by
  induction n with
  | zero =>
    intro slot x y _ _ _ hle
    split_ifs at hle <;> omega
  | succ n ih =>
    intro slot x y h hx hy hle
    simp only [tries_pack] at hle ih
    rcases cmdBoot_alive slot h with
      ⟨hx', -⟩ | ⟨-, ht, hb⟩ | ⟨-, ht, hboot, hb⟩ | ⟨-, -, hboot, hb⟩
    · exact absurd hx hx'
    · have hpred := toNat_pred ht
      simp only [bootRun, hb]
      refine ih (h.spend _) hx hy ?_
      simp only
      omega
    · simp only [bootRun, hb]
      refine ih (h.fallBack hboot) hy hx ?_
      simp only [hboot, if_true] at hle
      simp
      omega
    · simp only [bootRun, hb, (bootRun_dead (h.giveUp hboot) n).1]
      exact ⟨_, by rw [cmdBoot_dead (h.giveUp hboot)]⟩

/-- What the invariant is for. -/
theorem Record.Inv.sound (h : r.Inv) : Sound r := by
  obtain ⟨slot, x, y, rfl, h | h⟩ := h
  · refine ⟨fun _ => h.oneActive, ?_, ?_, ?_, ?_, ?_⟩
    · intro s r' hr'
      rcases cmdBoot_alive slot h with ⟨-, hb⟩ | ⟨-, -, hb⟩ | ⟨-, -, -, hb⟩ | ⟨-, -, -, hb⟩
      · obtain ⟨⟨rfl⟩, rfl⟩ := Prod.mk.inj (hb.symm.trans hr')
        simpa using h.bootable
      · obtain ⟨⟨rfl⟩, rfl⟩ := Prod.mk.inj (hb.symm.trans hr')
        simpa using h.bootable
      · simp [hb] at hr'
      · simp [hb] at hr'
    · intro hs n hall
      rw [abCurrentSlot_pack h.active, pack_slot] at hs
      exact tries_bootRun n h hs hall
    · intro _ hs
      rw [abCurrentSlot_pack h.active, pack_slot] at hs
      rw [abCurrentSlot_pack h.active]
      rcases cmdBoot_alive slot h with ⟨-, hb⟩ | ⟨hs', -⟩ | ⟨hs', -⟩ | ⟨hs', -⟩
      · exact hb
      all_goals exact absurd hs' hs
    · intro n
      have := count_fallsBack n slot h
      split_ifs at this <;> omega
    · intro ha hb n hn
      obtain ⟨hx, hy⟩ := unmarked_pack_iff.1 ⟨ha, hb⟩
      refine bootRun_reports n h hx hy ?_
      split_ifs <;> omega
  · have hunboot : ¬((pack slot x y).a.bootable = 1 ∨ (pack slot x y).b.bootable = 1) := by
      cases slot <;> simp [pack, h.unbootable]
    refine ⟨fun hb => absurd hb hunboot, ?_, ?_, ?_, ?_, ?_⟩
    · intro s r' hr'
      simp [cmdBoot_dead h] at hr'
    · intro _ n hall
      cases n with
      | zero => rfl
      | succ n => simp [bootRun, cmdBoot_dead h] at hall
    · refine fun hb => absurd ?_ hunboot
      generalize abCurrentSlot (pack slot x y) = s at hb
      cases s
      · exact .inl hb
      · exact .inr hb
    · exact fun n => by simp [(bootRun_dead h n).2]
    · exact fun _ _ n _ => ⟨_, by rw [(bootRun_dead h n).1, cmdBoot_dead h]⟩

/-- **The A/B slots.**  From a record with one active slot that is bootable, after any
sequence of boots, marked or not, and calls that change the active slot: one slot is
active as long as one is bootable, only a bootable slot is booted, a marked one is booted
again without counting, and boots of slots that are not marked use up the tries and end
in a report. -/
theorem ab_slots (l : Bootloaders) (r : Record) (h : r.Valid) (ops : List Op) :
    Sound (ops.foldl (step l) r) :=
  (inv_of_run l ops h.inv).sound

/-- Slot `a` new and active, slot `b` as it came from the factory. -/
def fresh : Record := ⟨⟨exbc, 1, 1, 0, 7⟩, ⟨exbc, 1, 0, 0, 7⟩⟩

/-- Slot `a` is marked in its first boot; slot `b` is then made active, booted, and left by an update. -/
theorem ab_slots_fresh :
    Sound ([Op.boot true, .setActive .b, .boot false, .updateBootloader 3].foldl (step ⟨1, 2⟩) fresh) :=
  ab_slots ⟨1, 2⟩ fresh ⟨⟨rfl, rfl⟩, .inl ⟨rfl, rfl⟩, rfl⟩ _

/-- **A marked slot is not counted.**  The first boot is marked; the two after it are not,
they boot the same slot again, and no try is taken. -/
theorem ab_marked_slot_not_counted :
    fresh.Valid ∧ ∃ r, step ⟨1, 2⟩ fresh (.boot true) = r ∧
      (bootRun 2 r).1 = [.boots .a, .boots .a] ∧ (bootRun 2 r).2.tries = r.tries :=
  ⟨⟨⟨rfl, rfl⟩, .inl ⟨rfl, rfl⟩, rfl⟩, _, rfl, by decide, by decide⟩
end Runs

end AbUpdate
end LittleKernel
