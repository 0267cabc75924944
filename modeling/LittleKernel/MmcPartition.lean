/-
# The areas of an eMMC card

`dev/mmc/mmc.c`: `mmc_select_partition`, `mmc_bread`, `mmc_bwrite`, `mmc_rpmb_bread`,
`mmc_rpmb_bwrite`, `mmc_berase`, `mmc_berase_write`, and what `mmc_mmc_register` makes of them.

Which area of the card an access reaches is a byte of the card, which a switch command writes.
The devices of the boot areas and of RPMB write it before an access and write it back after it;
the device of the user area relies on that.  `mmc_send_command` is the host's: how each command
of a call comes out is an input of the call, and a switch takes effect if it succeeds.
-/

import LittleKernel.Lib.Word

namespace LittleKernel
namespace MmcPartition

open Word

/-- The areas that have a device. -/
inductive Area
  | user
  | boot1
  | boot2
  | rpmb
  deriving DecidableEq

/-- `MMC_PARTITION_MMC_USER` and the others. -/
def Area.partition : Area → ℕ
  | .user => 0
  | .boot1 => 1
  | .boot2 => 2
  | .rpmb => 3

/-- Of `struct mmc`: whether the card counts in blocks, and its block lengths. -/
structure Mmc where
  isHc : Bool
  rdBlockLen : ℕ
  wrBlockLen : ℕ

/-- `struct mmc_cmd`. -/
structure Cmd where
  cmdidx : ℕ
  argument : ℕ
  deriving DecidableEq

/-- The byte of the card that selects an area; what has been sent, each command with the area
that was selected; and how the next commands come out, `0` being `NO_ERROR`. -/
structure Card where
  selected : ℕ
  sent : List (ℕ × Cmd)
  answers : List ℤ

/-- The area of a switch command that writes `EXT_CSD_PART_CONF`. -/
def Cmd.selects (cmd : Cmd) : Option ℕ :=
  if cmd.cmdidx = 6 ∧ cmd.argument / 2 ^ 24 = 3 ∧ cmd.argument / 2 ^ 16 % 256 = 179 then
    some (cmd.argument / 2 ^ 8 % 8)
  else none

/-- `mmc_send_command`. -/
def mmcSendCommand (cmd : Cmd) : StateM Card ℤ := fun card =>
  let err := card.answers.headD 0
  (err, ⟨if err = 0 then cmd.selects.getD card.selected else card.selected,
    card.sent ++ [(card.selected, cmd)], card.answers.tail⟩)

/-- `mmc_select_partition`; the card is no SD card. -/
def mmcSelectPartition (partition : ℕ) : StateM Card ℤ := do
  let _ ← mmcSendCommand ⟨6, 3 * 2 ^ 24 + 179 * 2 ^ 16 + (2 ^ 6 + 2 ^ 3 + partition) * 2 ^ 8⟩
  mmcSendCommand ⟨6, 3 * 2 ^ 24 + 177 * 2 ^ 16 + 1 * 2 ^ 8⟩

/-- What an access of a partition does around its own commands. -/
def access (partition : ℕ) (body : StateM Card ℤ) : StateM Card ℤ := do
  let err ← if partition ≠ 0 then mmcSelectPartition partition else pure 0
  if err ≠ 0 then return err
  let err ← body
  if err ≠ 0 then return err
  let err ← if partition ≠ 0 then mmcSelectPartition 0 else pure 0
  if err ≠ 0 then return -1
  return 0

/-- The argument of a transfer. -/
def address (m : Mmc) (blockLen block : ℕ) : ℕ := if m.isHc then block else u32 (block * blockLen)

/-- One block with `single`, more with `multiple` and `CMD12_STOP_TRANSMISSION`. -/
def transfer (multiple single argument count : ℕ) : StateM Card ℤ := do
  let err ← mmcSendCommand ⟨if 1 < count then multiple else single, argument⟩
  if err ≠ 0 then return err
  if 1 < count then mmcSendCommand ⟨12, 0⟩ else return 0

/-- `CMD23_SET_BLOCK_COUNT`, whose result is not looked at, and the transfer. -/
def countedTransfer (multiple argument blocks : ℕ) : StateM Card ℤ := do
  let _ ← mmcSendCommand ⟨23, blocks⟩
  mmcSendCommand ⟨multiple, argument⟩

section Calls

variable (m : Mmc) (partition block count : ℕ)

/-- `mmc_bwrite`. -/
def mmcBwrite : StateM Card ℤ :=
  access partition (transfer 25 24 (address m m.wrBlockLen block) count)

/-- `mmc_bread`. -/
def mmcBread : StateM Card ℤ :=
  access partition (transfer 18 17 (address m m.rdBlockLen block) count)

/-- `mmc_rpmb_bwrite`. -/
def mmcRpmbBwrite (reliable : Bool) : StateM Card ℤ :=
  access partition (countedTransfer 25 (address m m.wrBlockLen block)
    (if reliable then count ||| 2 ^ 31 else count))

/-- `mmc_rpmb_bread`. -/
def mmcRpmbBread : StateM Card ℤ :=
  access partition (countedTransfer 18 (address m m.rdBlockLen block) count)

/-- `mmc_berase_write`: zeros are written. -/
def mmcBeraseWrite : StateM Card ℤ := mmcBwrite m partition block count

/-- `mmc_berase`. -/
def mmcBerase : StateM Card ℤ := do
  let last := sub32 (u32 (block + count)) 1
  let err ← mmcSendCommand ⟨35, address m m.wrBlockLen block⟩
  if err ≠ 0 then return err
  let err ← mmcSendCommand ⟨36, address m m.wrBlockLen last⟩
  if err ≠ 0 then return err
  mmcSendCommand ⟨38, 0⟩

end Calls

inductive Op
  | read
  | write
  | erase
  deriving DecidableEq

/-- A native call on a device, with `BIO_FLAG_RELIABLE_WRITE` of the device and how the commands
come out that it sends. -/
structure Call where
  device : Area
  op : Op
  block : ℕ
  count : ℕ
  reliable : Bool
  answers : List ℤ

/-- The function that `mmc_mmc_register` gives the device for it. -/
def Call.native (m : Mmc) (c : Call) : StateM Card ℤ :=
  match c.op with
  | .read =>
    if c.device = .rpmb then mmcRpmbBread m c.device.partition c.block c.count
    else mmcBread m c.device.partition c.block c.count
  | .write =>
    if c.device = .rpmb then mmcRpmbBwrite m c.device.partition c.block c.count c.reliable
    else mmcBwrite m c.device.partition c.block c.count
  | .erase =>
    if c.device = .user then mmcBerase m c.block c.count
    else mmcBeraseWrite m c.device.partition c.block c.count

/-- What a call leaves selected, and what it sends. -/
def Call.run (m : Mmc) (c : Call) (selected : ℕ) : ℕ × List (ℕ × Cmd) :=
  let card := (c.native m ⟨selected, [], c.answers⟩).2
  (card.selected, card.sent)

/-- The commands that transfer data or erase. -/
def Cmd.Accesses (cmd : Cmd) : Prop := cmd.cmdidx ∈ [17, 18, 24, 25, 35, 36, 38]

/-- **The accesses of some calls reach the right area**: each data-transfer and erase command is
sent while that of the call's device is selected. -/
def Reach (m : Mmc) : ℕ → List Call → Prop
  | _, [] => True
  | selected, c :: calls =>
    (∀ x ∈ (c.run m selected).2, x.2.Accesses → x.1 = c.device.partition) ∧
      Reach m (c.run m selected).1 calls

/-- The command number `i` of the call succeeds. -/
def Call.ok (c : Call) (i : ℕ) : Prop := c.answers.getD i 0 = 0

instance (c : Call) (i : ℕ) : Decidable (c.ok i) :=
  inferInstanceAs (Decidable (c.answers.getD i 0 = 0))

/-- The commands of the access itself succeed, and the one that selects the user area again. -/
def Call.Completes (c : Call) : Prop :=
  if c.device = .rpmb ∧ c.op ≠ .erase then c.ok 3 ∧ c.ok 4
  else if 1 < c.count then c.ok 2 ∧ c.ok 3 ∧ c.ok 4
  else c.ok 2 ∧ c.ok 3

/-- **A call leaves the card as it finds it**: it is for the user area; or neither of the two
commands that switch to its area succeeds; or both do, those of the access, and the one that
selects the user area again. -/
def Call.Restores (c : Call) : Prop :=
  c.device = .user ∨ (¬ c.ok 0 ∧ ¬ c.ok 1) ∨ (c.ok 0 ∧ c.ok 1 ∧ c.Completes)

/-! ### What a call sends -/

section Runs

variable {α β : Type}

theorem bind_apply (x : StateM Card α) (f : α → StateM Card β) (card : Card) :
    (x >>= f) card = f (x card).1 (x card).2 := rfl

theorem pure_apply (a : α) (card : Card) : (pure a : StateM Card α) card = (a, card) := rfl

theorem ite_run (p : Prop) [Decidable p] (x y : StateM Card α) (card : Card) :
    (if p then x else y) card = if p then x card else y card := by
  split_ifs <;> rfl

end Runs

/-- How the command after `i` more comes out. -/
def Card.answer (card : Card) (i : ℕ) : ℤ := card.answers.getD i 0

/-- A command that is sent. -/
@[simp] theorem mmcSendCommand_fst (cmd : Cmd) (card : Card) :
    (mmcSendCommand cmd card).1 = card.answer 0 := by
  rw [mmcSendCommand, List.headD_eq_getD]
  rfl

@[simp] theorem mmcSendCommand_sent (cmd : Cmd) (card : Card) :
    (mmcSendCommand cmd card).2.sent = card.sent ++ [(card.selected, cmd)] := rfl

@[simp] theorem mmcSendCommand_answer (cmd : Cmd) (card : Card) (i : ℕ) :
    (mmcSendCommand cmd card).2.answer i = card.answer (i + 1) := by
  cases h : card.answers <;> simp [mmcSendCommand, Card.answer, h]

/-- One that is no switch. -/
theorem mmcSendCommand_selected {cmd : Cmd} (h : cmd.cmdidx ≠ 6) (card : Card) :
    (mmcSendCommand cmd card).2.selected = card.selected := by
  have hselects : cmd.selects = none := if_neg fun hs => h hs.1
  simp only [mmcSendCommand, hselects, Option.getD_none, ite_self]

/-- **Switching to an area**: it is selected if the first command succeeds, whatever is
reported. -/
theorem mmcSelectPartition_spec (a : Area) (card : Card) :
    (mmcSelectPartition a.partition card).1 = card.answer 1 ∧
      (mmcSelectPartition a.partition card).2.selected =
        (if card.answer 0 = 0 then a.partition else card.selected) ∧
      (∀ i, (mmcSelectPartition a.partition card).2.answer i = card.answer (i + 2)) ∧
      ∃ cmds, (mmcSelectPartition a.partition card).2.sent = card.sent ++ cmds ∧
        ∀ x ∈ cmds, ¬ x.2.Accesses := by
  have hfirst : (⟨6, 3 * 2 ^ 24 + 179 * 2 ^ 16 + (2 ^ 6 + 2 ^ 3 + a.partition) * 2 ^ 8⟩ :
      Cmd).selects = some a.partition := by
    cases a <;> decide
  have hsecond : (⟨6, 3 * 2 ^ 24 + 177 * 2 ^ 16 + 1 * 2 ^ 8⟩ : Cmd).selects = none := by decide
  simp only [mmcSelectPartition, bind_apply]
  refine ⟨by simp, ?_, by simp, ?_⟩
  · simp only [mmcSendCommand, hfirst, hsecond, Option.getD_some, Option.getD_none, ite_self,
      List.headD_eq_getD]
    rfl
  · simp only [mmcSendCommand_sent, List.append_assoc]
    exact ⟨_, rfl, by simp [Cmd.Accesses]⟩

/-- **What an access does in the area that is selected**: it stays there, an accessing command
is sent, and it succeeds if some of its commands do, `n` in all. -/
structure Body (body : StateM Card ℤ) (needs : List ℕ) (n : ℕ) : Prop where
  selected : ∀ card, (body card).2.selected = card.selected
  sent : ∀ card, ∃ cmds : List Cmd, (∃ cmd ∈ cmds, cmd.Accesses) ∧
    (body card).2.sent = card.sent ++ cmds.map fun cmd => (card.selected, cmd)
  result : ∀ card, (body card).1 = 0 ↔ ∀ i ∈ needs, card.answer i = 0
  answer : ∀ card, (body card).1 = 0 → ∀ i, (body card).2.answer i = card.answer (i + n)

/-- A command that transfers data. -/
theorem transfers {i : ℕ} (h : i = 17 ∨ i = 18 ∨ i = 24 ∨ i = 25) (argument : ℕ) :
    (⟨i, argument⟩ : Cmd).cmdidx ≠ 6 ∧ (⟨i, argument⟩ : Cmd).Accesses := by
  constructor
  · show i ≠ 6
    omega
  · rcases h with rfl | rfl | rfl | rfl <;> simp [Cmd.Accesses]

/-- Two commands for several blocks, one for a single one. -/
theorem transfer_body {multiple single : ℕ} (hm : multiple = 18 ∨ multiple = 25)
    (hs : single = 17 ∨ single = 24) (argument count : ℕ) :
    Body (transfer multiple single argument count) (if 1 < count then [0, 1] else [0])
      (if 1 < count then 2 else 1) := by
  have hstop : ((⟨12, 0⟩ : Cmd)).cmdidx ≠ 6 := by decide
  by_cases hc : 1 < count
  · obtain ⟨hmultiple, haccesses⟩ := transfers (i := multiple) (by omega) argument
    constructor
    all_goals
      intro card
      simp only [transfer, bind_apply, ite_run, pure_apply, mmcSendCommand_fst, if_pos hc]
      by_cases h : card.answer 0 = 0
    · simp [h, mmcSendCommand_selected hmultiple, mmcSendCommand_selected hstop]
    · simp [h, mmcSendCommand_selected hmultiple]
    · refine ⟨[⟨multiple, argument⟩, ⟨12, 0⟩], ⟨_, List.mem_cons_self, haccesses⟩, ?_⟩
      simp [h, mmcSendCommand_selected hmultiple]
    · refine ⟨[_], ⟨_, List.mem_cons_self, haccesses⟩, ?_⟩
      simp [h]
    · simp [h]
    · simp [h]
    · simp [h]
    · simp [h]
  · obtain ⟨hsingle, haccesses⟩ := transfers (i := single) (by omega) argument
    constructor
    all_goals
      intro card
      simp only [transfer, bind_apply, ite_run, pure_apply, mmcSendCommand_fst, if_neg hc]
      by_cases h : card.answer 0 = 0
    · simp [h, mmcSendCommand_selected hsingle]
    · simp [h, mmcSendCommand_selected hsingle]
    · refine ⟨[_], ⟨_, List.mem_cons_self, haccesses⟩, ?_⟩
      simp [h]
    · refine ⟨[_], ⟨_, List.mem_cons_self, haccesses⟩, ?_⟩
      simp [h]
    · simp [h]
    · simp [h]
    · simp [h]
    · simp [h]

theorem countedTransfer_body {multiple : ℕ} (hm : multiple = 18 ∨ multiple = 25)
    (argument blocks : ℕ) : Body (countedTransfer multiple argument blocks) [1] 2 := by
  obtain ⟨hmultiple, haccesses⟩ := transfers (i := multiple) (by omega) argument
  have hcount : ((⟨23, blocks⟩ : Cmd)).cmdidx ≠ 6 := by simp
  constructor
  all_goals
    intro card
    simp only [countedTransfer, bind_apply]
  · rw [mmcSendCommand_selected hmultiple, mmcSendCommand_selected hcount]
  · refine ⟨[⟨23, blocks⟩, ⟨multiple, argument⟩],
      ⟨_, List.mem_cons_of_mem _ List.mem_cons_self, haccesses⟩, ?_⟩
    simp [mmcSendCommand_selected hcount]
  · simp
  · simp

theorem mmcBerase_body (m : Mmc) (block count : ℕ) :
    Body (mmcBerase m block count) [0, 1, 2] 3 := by
  have hstart (argument : ℕ) : (⟨35, argument⟩ : Cmd).cmdidx ≠ 6 := by simp
  have hend (argument : ℕ) : (⟨36, argument⟩ : Cmd).cmdidx ≠ 6 := by simp
  have herase : (⟨38, 0⟩ : Cmd).cmdidx ≠ 6 := by simp
  have haccesses (argument : ℕ) : (⟨35, argument⟩ : Cmd).Accesses := by simp [Cmd.Accesses]
  simp only [mmcBerase]
  generalize address m m.wrBlockLen block = first
  generalize address m m.wrBlockLen (sub32 (u32 (block + count)) 1) = last
  -- the cases are how many of the commands are sent
  constructor
  all_goals
    intro card
    simp only [bind_apply, ite_run, pure_apply, mmcSendCommand_fst, mmcSendCommand_answer]
    by_cases h₀ : card.answer 0 = 0
    on_goal 1 => by_cases h₁ : card.answer 1 = 0
  · simp [h₀, h₁, mmcSendCommand_selected (hstart _), mmcSendCommand_selected (hend _),
      mmcSendCommand_selected herase]
  · simp [h₀, h₁, mmcSendCommand_selected (hstart _), mmcSendCommand_selected (hend _)]
  · simp [h₀, mmcSendCommand_selected (hstart _)]
  · refine ⟨[⟨35, first⟩, ⟨36, last⟩, ⟨38, 0⟩], ⟨_, List.mem_cons_self, haccesses _⟩, ?_⟩
    simp [h₀, h₁, mmcSendCommand_selected (hstart _), mmcSendCommand_selected (hend _)]
  · refine ⟨[⟨35, first⟩, ⟨36, last⟩], ⟨_, List.mem_cons_self, haccesses _⟩, ?_⟩
    simp [h₀, h₁, mmcSendCommand_selected (hstart _)]
  · refine ⟨[⟨35, first⟩], ⟨_, List.mem_cons_self, haccesses _⟩, ?_⟩
    simp [h₀]
  · simp [h₀, h₁]
  · simp [h₀, h₁]
  · simp [h₀]
  · simp [h₀, h₁]
  · simp [h₀, h₁]
  · simp [h₀]

/-- **An access of another area.**  Its own commands are sent if the second command that
switches succeeds, in its area if the first does; the user area is selected again if all of
them succeed and the first command that switches back. -/
theorem access_spec {a : Area} (ha : a ≠ .user) {body : StateM Card ℤ} {needs : List ℕ} {n : ℕ}
    (hb : Body body needs n) (card : Card) :
    ∃ cmds, (access a.partition body card).2.sent = card.sent ++ cmds ∧
      (∀ x ∈ cmds, x.2.Accesses →
        x.1 = if card.answer 0 = 0 then a.partition else card.selected) ∧
      ((∃ x ∈ cmds, x.2.Accesses) ↔ card.answer 1 = 0) ∧
      (access a.partition body card).2.selected =
        if card.answer 1 = 0 ∧ (∀ i ∈ needs, card.answer (i + 2) = 0) ∧ card.answer (n + 2) = 0
        then 0 else if card.answer 0 = 0 then a.partition else card.selected := by
  have hpart : a.partition ≠ 0 := by
    cases a
    · exact absurd rfl ha
    all_goals decide
  obtain ⟨hresult, hselected, hanswers, cmds, hsent, hquiet⟩ := mmcSelectPartition_spec a card
  simp only [access, bind_apply, ite_run, pure_apply, if_pos hpart, hresult]
  generalize (if card.answer 0 = 0 then a.partition else card.selected) = sel at hselected ⊢
  by_cases h₁ : card.answer 1 = 0
  · -- the commands of the access
    rw [if_neg (not_not_intro h₁)]
    generalize (mmcSelectPartition a.partition card).2 = card₁ at *
    obtain ⟨cmds₁, ⟨cmd, hcmd, haccesses⟩, hsent₁⟩ := hb.sent card₁
    have hneeds := hb.result card₁
    simp only [hanswers] at hneeds
    by_cases h₂ : (body card₁).1 = 0
    · -- and switching back
      have hanswers₂ := hb.answer card₁ h₂
      have hselected₂ := hb.selected card₁
      rw [if_neg (not_not_intro h₂)]
      generalize (body card₁).2 = card₂ at *
      obtain ⟨-, hback, -, cmds₂, hsent₂, hquiet₂⟩ := mmcSelectPartition_spec .user card₂
      refine ⟨cmds ++ (cmds₁.map fun cmd => (card₁.selected, cmd)) ++ cmds₂, ?_, ?_, ?_, ?_⟩
      · split_ifs <;> exact hsent₂.trans (by rw [hsent₁, hsent]; simp only [List.append_assoc])
      · rw [← hselected]
        rintro x hx hxa
        rcases List.mem_append.1 hx with hx | hx
        · rcases List.mem_append.1 hx with hx | hx
          · exact absurd hxa (hquiet x hx)
          · obtain ⟨_, -, rfl⟩ := List.mem_map.1 hx
            rfl
        · exact absurd hxa (hquiet₂ x hx)
      · exact iff_of_true ⟨(card₁.selected, cmd), by simp [hcmd], haccesses⟩ h₁
      · rw [hanswers₂, hanswers, hselected₂, hselected, Nat.zero_add] at hback
        have hall : (card.answer 1 = 0 ∧ (∀ i ∈ needs, card.answer (i + 2) = 0) ∧
            card.answer (n + 2) = 0) ↔ card.answer (n + 2) = 0 :=
          ⟨fun h => h.2.2, fun h => ⟨h₁, hneeds.1 h₂, h⟩⟩
        simp only [hall]
        rw [show (if card.answer (n + 2) = 0 then 0 else sel) = _ from hback.symm]
        split_ifs <;> rfl
    · rw [if_pos h₂]
      refine ⟨cmds ++ cmds₁.map fun cmd => (card₁.selected, cmd), ?_, ?_, ?_, ?_⟩
      · rw [hsent₁, hsent, List.append_assoc]
      · rw [← hselected]
        rintro x hx hxa
        rcases List.mem_append.1 hx with hx | hx
        · exact absurd hxa (hquiet x hx)
        · obtain ⟨_, -, rfl⟩ := List.mem_map.1 hx
          rfl
      · exact iff_of_true ⟨(card₁.selected, cmd), by simp [hcmd], haccesses⟩ h₁
      · rw [hb.selected, hselected, if_neg fun h => h₂ (hneeds.2 h.2.1)]
  · rw [if_pos h₁]
    refine ⟨cmds, hsent, fun x hx hxa => absurd hxa (hquiet x hx), ?_, ?_⟩
    · exact iff_of_false (fun ⟨x, hx, hxa⟩ => hquiet x hx hxa) h₁
    · rw [hselected, if_neg fun h => h₁ h.1]

/-- An access of the user area. -/
theorem access_user (body : StateM Card ℤ) (card : Card) :
    (access Area.user.partition body card).2 = (body card).2 := by
  have hbody : access Area.user.partition body card =
      if (body card).1 ≠ 0 then body card else (0, (body card).2) := by
    simp only [access, Area.partition, ne_eq, not_true_eq_false, if_false, pure_bind, bind_apply,
      ite_run, pure_apply]
    rfl
  rw [hbody]
  split_ifs <;> rfl

/-! ### Calls -/

/-- **A call for the user area** stays in the area that is selected, and accesses it. -/
theorem Call.run_user {c : Call} (hc : c.device = .user) (m : Mmc) (selected : ℕ) :
    (c.run m selected).1 = selected ∧ (∀ x ∈ (c.run m selected).2, x.1 = selected) ∧
      ∃ x ∈ (c.run m selected).2, x.2.Accesses := by
  have hbody : ∃ body needs n, Body body needs n ∧
      ∀ card, (c.native m card).2 = (body card).2 := by
    simp only [Call.native, hc]
    cases c.op
    · exact ⟨_, _, _, transfer_body (.inl rfl) (.inl rfl) _ _, access_user _⟩
    · exact ⟨_, _, _, transfer_body (.inr rfl) (.inr rfl) _ _, access_user _⟩
    · exact ⟨_, _, _, mmcBerase_body m _ _, fun card => rfl⟩
  obtain ⟨body, needs, n, hb, hnative⟩ := hbody
  obtain ⟨cmds, ⟨cmd, hcmd, haccesses⟩, hsent⟩ := hb.sent ⟨selected, [], c.answers⟩
  rw [Call.run, hnative, hb.selected, hsent]
  refine ⟨rfl, ?_, (selected, cmd), by simp [hcmd], haccesses⟩
  rintro x hx
  obtain ⟨_, -, rfl⟩ := List.mem_map.1 hx
  rfl

/-- The transfer of a call for another area. -/
theorem Call.native_eq {c : Call} (hc : c.device ≠ .user) (m : Mmc) : ∃ body needs n,
    Body body needs n ∧ c.native m = access c.device.partition body ∧
      (c.Completes ↔ (∀ i ∈ needs, c.ok (i + 2)) ∧ c.ok (n + 2)) := by
  have hcount : (if 1 < c.count then c.ok 2 ∧ c.ok 3 ∧ c.ok 4 else c.ok 2 ∧ c.ok 3) ↔
      (∀ i ∈ (if 1 < c.count then [0, 1] else [0]), c.ok (i + 2)) ∧
        c.ok ((if 1 < c.count then 2 else 1) + 2) := by
    split_ifs <;> simp [and_assoc]
  simp only [Call.native, Call.Completes, if_neg hc]
  cases c.op
  · by_cases hr : c.device = .rpmb
    · refine ⟨_, _, _, countedTransfer_body (.inl rfl) _ _, if_pos hr, ?_⟩
      rw [if_pos ⟨hr, by decide⟩]
      simp
    · refine ⟨_, _, _, transfer_body (.inl rfl) (.inl rfl) _ _, if_neg hr, ?_⟩
      rw [if_neg fun h => hr h.1, hcount]
  · by_cases hr : c.device = .rpmb
    · refine ⟨_, _, _, countedTransfer_body (.inr rfl) _ _, if_pos hr, ?_⟩
      rw [if_pos ⟨hr, by decide⟩]
      simp
    · refine ⟨_, _, _, transfer_body (.inr rfl) (.inr rfl) _ _, if_neg hr, ?_⟩
      rw [if_neg fun h => hr h.1, hcount]
  · refine ⟨_, _, _, transfer_body (.inr rfl) (.inr rfl) _ _, rfl, ?_⟩
    rw [if_neg fun h => h.2 rfl, hcount]

/-- **A call for another area**. -/
theorem Call.run_other {c : Call} (hc : c.device ≠ .user) (m : Mmc) (selected : ℕ) :
    (∀ x ∈ (c.run m selected).2, x.2.Accesses →
        x.1 = if c.ok 0 then c.device.partition else selected) ∧
      ((∃ x ∈ (c.run m selected).2, x.2.Accesses) ↔ c.ok 1) ∧
      (c.ok 1 ∧ c.Completes → (c.run m selected).1 = 0) ∧
      (¬ (c.ok 1 ∧ c.Completes) →
        (c.run m selected).1 = if c.ok 0 then c.device.partition else selected) := by
  obtain ⟨body, needs, n, hb, hnative, hcompletes⟩ := Call.native_eq hc m
  obtain ⟨cmds, hsent, harea, haccesses, hselected⟩ :=
    access_spec hc hb ⟨selected, [], c.answers⟩
  simp only [Call.run, hnative, hsent, hselected, hcompletes]
  exact ⟨harea, haccesses, fun h => if_pos h, fun h => if_neg h⟩

/-- **eMMC accesses reach the right hardware partition as long as every call leaves the card as
it finds it**; one that does not lets the next call for the user area, if not itself, reach
another. -/
theorem reach_of_restores (m : Mmc) :
    (∀ calls : List Call, (∀ c ∈ calls, c.Restores) → Reach m Area.user.partition calls) ∧
      ∀ c d : Call, ¬ c.Restores → d.device = .user → ¬ Reach m Area.user.partition [c, d] := by
  constructor
  · intro calls hcalls
    induction calls with
    | nil => trivial
    | cons c calls ih =>
      have hrest := ih fun d hd => hcalls d (List.mem_cons_of_mem _ hd)
      have hc := hcalls c List.mem_cons_self
      by_cases hu : c.device = .user
      · obtain ⟨hselected, harea, -⟩ := Call.run_user hu m Area.user.partition
        exact ⟨fun x hx _ => (harea x hx).trans (by rw [hu]), by rwa [hselected]⟩
      · obtain ⟨harea, haccesses, hback, hstays⟩ :=
          Call.run_other hu m Area.user.partition
        rcases hc with hc | ⟨h₀, h₁⟩ | ⟨h₀, h₁, hcompletes⟩
        · exact absurd hc hu
        · -- nothing is switched, nothing accessed
          have hselected := hstays fun h => h₁ h.1
          rw [if_neg h₀] at hselected
          exact ⟨fun x hx hxa => absurd (haccesses.1 ⟨x, hx, hxa⟩) h₁, by rwa [hselected]⟩
        · rw [if_pos h₀] at harea
          exact ⟨harea, by rw [hback ⟨h₁, hcompletes⟩]; exact hrest⟩
  · rintro c d hc hd ⟨hreach, hreach', -⟩
    have hu : c.device ≠ .user := fun h => hc (.inl h)
    have hpart : Area.user.partition ≠ c.device.partition := by
      cases hdev : c.device
      · exact absurd hdev hu
      all_goals decide
    obtain ⟨harea, haccesses, -, hstays⟩ := Call.run_other hu m Area.user.partition
    obtain ⟨-, hsame, x, hx, hxa⟩ := Call.run_user hd m (c.run m Area.user.partition).1
    have hnext := (hsame x hx).symm.trans ((hreach' x hx hxa).trans (by rw [hd]))
    by_cases h₀ : c.ok 0
    · -- its area stays selected
      have hnot : ¬ (c.ok 1 ∧ c.Completes) := fun h => hc (.inr (.inr ⟨h₀, h⟩))
      rw [hstays hnot, if_pos h₀] at hnext
      exact hpart hnext.symm
    · -- it reaches the user area
      have h₁ : c.ok 1 := by
        by_contra h₁
        exact hc (.inr (.inl ⟨h₀, h₁⟩))
      obtain ⟨x, hx, hxa⟩ := haccesses.2 h₁
      have hself := harea x hx hxa
      rw [if_neg h₀] at hself
      exact hpart (hself.symm.trans (hreach x hx hxa))

/-- A write to the first boot area fails, and a read of the user area then reads the boot
area. -/
theorem not_reach : ¬ ∀ (m : Mmc) (calls : List Call), Reach m Area.user.partition calls := by
  intro h
  have hread := (h ⟨true, 512, 512⟩ [⟨.boot1, .write, 0, 1, false, [0, 0, -1]⟩,
    ⟨.user, .read, 0, 1, false, []⟩]).2.1 (1, ⟨17, 0⟩) (by decide) (by simp [Cmd.Accesses])
  exact absurd hread (by decide)

end MmcPartition
end LittleKernel
