/-
# Fastboot commands on a locked device

`dev/usb/device/fastboot/fastboot-cmd.c`: `rx_handler`, its table and the handlers, with
`get_lock_state` and `set_lock_state` of `lib/lock/lock.c` and `debug_store_ramdump_oem`
of the platform.

The state is the storage and what the handlers keep between commands: the lock state in
RPMB, the download and its buffer, the flag of `ramdump:`, the system parameters.  The
storage is of an arbitrary type, and a `Driver` has the functions of the layers below
(`lib/gpt`, `lib/sysparam`, the boot path) that a handler calls on it; nothing is assumed
of them.  The handlers that only read the storage (`getvar:`, `diskinfo:`, `partinfo:`,
`diskdump:`) are told apart by their replies alone, which the driver gives.

Only `fb_do_flash` asks for the lock state.  `Harmless` lists what the commands have to
be like for the storage to stay as it is, and `locked_storage_unchanged` is that it does;
`locked_erase` is the command the lock does not stop.
-/

import Mathlib.Data.List.Infix
import LittleKernel.Lib.Machine
import LittleKernel.Lib.Word
import LittleKernel.AbUpdate

namespace LittleKernel
namespace Fastboot

open Word

/-- The functions of other layers that the handlers call on a storage `σ`.  A partition
is named by its key. -/
structure Driver (σ : Type) where
  /-- `part_get` and `part_get_size_in_bytes`, `none` for `NULL`. -/
  partSize : List Char → σ → Option ℕ
  /-- `part_erase` of the partition that `part_get` found. -/
  partErase : List Char → σ → ℤ × σ
  /-- `part_wipe_boot`. -/
  partWipeBoot : σ → ℤ × σ
  /-- `part_write_partial` at offset 0. -/
  partWritePartial : List Char → List UInt8 → ℕ → σ → ℤ × σ
  /-- `part_update`. -/
  partUpdate : List UInt8 → ℕ → σ → σ
  /-- `env` read, `ENV_ID_RAMDISK_SIZE` set, and written. -/
  envRamdiskSize : ℕ → σ → σ
  /-- `ab_set_active`. -/
  abSetActive : AbUpdate.Slot → σ → σ
  /-- `proinfo` read, the track id set, and written. -/
  trackidWrite : List Char → σ → σ
  /-- `sysparam_write`. -/
  sysparamWrite : List (String × List UInt8) → σ → σ
  /-- `debug_store_ramdump_oem("clear")`. -/
  ramdumpClear : σ → ℤ × σ
  /-- `debug_store_ramdump`. -/
  ramdumpSave : σ → ℤ × σ
  /-- `boot_fb_continue`. -/
  bootFbContinue : σ → σ
  /-- `boot_fb_boot`. -/
  bootFbBoot : List UInt8 → ℕ → σ → σ
  /-- The replies of the commands that only read. -/
  reply : List Char → σ → List String
  /-- What `diskdump:` leaves in the transfer buffer. -/
  diskdump : List Char → σ → List UInt8 → List UInt8

/-- How the bootloader was built. -/
structure Config where
  /-- `CONFIG_USE_RPMB` and `CONFIG_CHECK_LOCK_STATE`. -/
  checkLockState : Bool
  /-- `CONFIG_USE_RPMB`. -/
  useRpmb : Bool
  /-- `ab_update_support`. -/
  abUpdateSupport : Bool
  /-- The name `part_get_pt_type` knows. -/
  ptType : List Char

/-- What the handlers keep.  `sent` has the statuses, `none` where the source sends a
buffer it has not written. -/
structure State (σ : Type) where
  storage : σ
  lockState : ℕ
  isFirstBoot : Bool
  isRamdump : Bool
  storeRamdump : Bool
  downloadSize : ℕ
  downloadedDataSize : ℕ
  transferBuffer : List UInt8
  sysparams : List (String × List UInt8)
  sent : List (Option String)

variable {σ : Type}

/-- `fastboot_send_status`. -/
def State.send (response : String) (s : State σ) : State σ :=
  { s with sent := s.sent ++ [some response] }

section Text

/-- The value of a hexadecimal digit. -/
def hexDigit (c : Char) : Option ℕ :=
  if '0' ≤ c ∧ c ≤ '9' then some (c.toNat - '0'.toNat)
  else if 'a' ≤ c ∧ c ≤ 'f' then some (c.toNat - 'a'.toNat + 10)
  else if 'A' ≤ c ∧ c ≤ 'F' then some (c.toNat - 'A'.toNat + 10)
  else none

/-- The digits that `strtol` reads, up to a limit. -/
def hexDigits (limit : ℕ) : ℕ → List Char → ℕ
  | acc, [] => acc
  | acc, c :: cs =>
    match hexDigit c with
    | some d => hexDigits limit (min (acc * 16 + d) limit) cs
    | none => acc

/-- `strtol(s, NULL, 16)` as an `unsigned int`. -/
def strtol16 (s : List Char) : ℕ :=
  let s := s.dropWhile fun c => c = ' ' ∨ ('\t' ≤ c ∧ c ≤ '\r')
  let neg := s.head? = some '-'
  let s := if s.head? = some '-' ∨ s.head? = some '+' then s.tail else s
  let s := if s.take 2 = ['0', 'x'] ∨ s.take 2 = ['0', 'X'] then s.drop 2 else s
  if neg then sub32 0 (u32 (hexDigits (2 ^ 63) 0 s)) else u32 (hexDigits (2 ^ 63 - 1) 0 s)

/-- `%08x`. -/
def hex8 (n : ℕ) : String := String.ofList ((Nat.toDigits 16 n).leftpad 8 '0')

end Text

section Handlers

variable (cfg : Config) (d : Driver σ)

/-- `get_lock_state`; `readable` says whether RPMB answers. -/
def getLockState (readable : Bool) (s : State σ) : ℤ :=
  if cfg.useRpmb then if readable then s.lockState else -1 else 0

/-- `set_lock_state`. -/
def setLockState (state : ℕ) (readable : Bool) (s : State σ) : ℤ × State σ :=
  if cfg.useRpmb ∧ readable then (0, { s with lockState := state }) else (-1, s)

/-- `fb_do_erase`. -/
def fbDoErase (cmd : List Char) (s : State σ) : State σ :=
  let key := cmd.drop 6
  if key = "wipe".toList then
    let (status, storage) := d.partWipeBoot s.storage
    { s with storage := storage }.send
      (if status ≠ 0 then "FAILfailed to erase partition" else "OKAY")
  else if key ≠ cfg.ptType ∧ d.partSize key s.storage = none then
    s.send "FAILpartition does not exist"
  else
    let (status, storage) := d.partErase key s.storage
    { s with storage := storage }.send
      (if status ≠ 0 then "FAILfailed to erase partition" else "OKAY")

/-- `flash_using_part`: the response and the storage. -/
def flashUsingPart (key : List Char) (size downloadedDataSize : ℕ) (addr : List UInt8)
    (storage : σ) : String × σ :=
  let size := u32 (size + 511) / 512 * 512
  if key = cfg.ptType then ("OKAY", d.partUpdate addr size storage)
  else
    let (response, storage) :=
      match d.partSize key storage with
      | none => ("FAILpartition does not exist", storage)
      | some length =>
        if length < downloadedDataSize ∧ length ≠ 0 then
          ("FAILimage too large for partition", storage)
        else
          let (ret, storage) := d.partWritePartial key addr size storage
          (if ret ≠ 0 then "FAILfailed to flash partition" else "OKAY", storage)
    (response, if key = "ramdisk".toList then d.envRamdiskSize size storage else storage)

/-- `fb_do_flash`. -/
def fbDoFlash (readable : Bool) (cmd : List Char) (s : State σ) : State σ :=
  if cfg.checkLockState ∧ s.isFirstBoot ∧ getLockState cfg readable s = 1 then
    s.send "FAILDevice is locked"
  else
    let (response, storage) := flashUsingPart cfg d (cmd.drop 6) s.downloadedDataSize
      s.downloadedDataSize s.transferBuffer s.storage
    { s with storage := storage }.send response

/-- `fb_do_continue`. -/
def fbDoContinue (s : State σ) : State σ :=
  let s := s.send "OKAY"
  { s with storage := d.bootFbContinue s.storage }

/-- `fb_do_boot`. -/
def fbDoBoot (s : State σ) : State σ :=
  let s := s.send "OKAY"
  { s with storage := d.bootFbBoot s.transferBuffer s.downloadSize s.storage }

/-- `fb_do_reboot`. -/
def fbDoReboot (s : State σ) : State σ := s.send "OKAY"

/-- `fb_do_download`. -/
def fbDoDownload (cmd : List Char) (s : State σ) : State σ :=
  let downloadSize := strtol16 (cmd.drop 9)
  { s with downloadSize := downloadSize, downloadedDataSize := 0 }.send ("DATA" ++ hex8 downloadSize)

/-- `CFG_FASTBOOT_TRANSFER_BUFFER_SIZE`. -/
def transferBufferSize : ℕ := 0x30000000

/-- `fb_do_ramdump`. -/
def fbDoRamdump (cmd : List Char) (s : State σ) : State σ :=
  let downloadSize := strtol16 (cmd.drop 8)
  let s := { s with isRamdump := true, downloadedDataSize := 0 }
  if transferBufferSize < downloadSize then
    { s with downloadSize := 0 }.send "FAILdownload data size is bigger than buffer size"
  else { s with downloadSize := downloadSize }.send ("DATA" ++ hex8 downloadSize)

/-- `fb_do_set_active`. -/
def fbDoSetActive (cmd : List Char) (s : State σ) : State σ :=
  if !cfg.abUpdateSupport then s.send "FAILnot support"
  else if cmd.drop 11 = ['a'] then { s with storage := d.abSetActive .a s.storage }.send "OKAY"
  else if cmd.drop 11 = ['b'] then { s with storage := d.abSetActive .b s.storage }.send "OKAY"
  else s.send "FAILinvalid slot"

/-- `fb_do_flashing`.  `get_unlock_ability` is 1, and `lock_critical` does nothing. -/
def fbDoFlashing (readable : Bool) (cmd : List Char) (s : State σ) : State σ :=
  let change (state : ℕ) : State σ :=
    let (ret, s) := setLockState cfg state readable s
    s.send (if ret ≠ 0 then "FAILRPBM error: failed to change lock state on RPMB" else "OKAY")
  let arg := cmd.drop 9
  if arg = "lock".toList then change 1
  else if arg = "unlock".toList then change 0
  else if arg = "lock_critical".toList ∨ arg = "unlock_critical".toList then s.send "OKAY"
  else if arg = "get_unlock_ability".toList then s.send "OKAY1"
  else s.send "FAILunsupported command"

/-- A system parameter set anew and all of them written. -/
def oemEnable (name : String) (value : List UInt8) (s : State σ) : State σ :=
  let sysparams := s.sysparams.filter (·.1 ≠ name) ++ [(name, value)]
  { s with sysparams := sysparams, storage := d.sysparamWrite sysparams s.storage }.send "OKAY"

/-- A system parameter removed, and what is left written, if it was there. -/
def oemDisable (name : String) (response : Option String) (s : State σ) : State σ :=
  let s :=
    if s.sysparams.any (·.1 = name) then
      let sysparams := s.sysparams.filter (·.1 ≠ name)
      { s with sysparams := sysparams, storage := d.sysparamWrite sysparams s.storage }
    else s
  { s with sent := s.sent ++ [response] }

/-- `debug_store_ramdump_oem` and the reply to it. -/
def oemStrRam (cmd : List Char) (s : State σ) : State σ :=
  let answer (ret : ℤ) (s : State σ) : State σ :=
    s.send (if ret = 0 then "OKAY" else "FAILunsupported command")
  if cmd = "set".toList then answer 0 { s with storeRamdump := true }
  else if cmd = "reset".toList then answer 0 { s with storeRamdump := false }
  else if cmd = "clear".toList then
    let (ret, storage) := d.ramdumpClear s.storage
    answer ret { s with storage := storage }
  else if cmd = "save".toList then
    let (ret, storage) := d.ramdumpSave s.storage
    answer ret { s with storage := storage }
  else answer (-1) s

/-- `UART_LOG_MODE_FLAG`. -/
def uartLogModeFlag : List UInt8 := [0xDE, 0x00, 0x42, 0x0A]

/-- The bytes of `xct-on`. -/
def xctOn : List UInt8 := [0x78, 0x63, 0x74, 0x2D, 0x6F, 0x6E]

/-- `fb_do_oem`.  The text of a command ends before its NUL and so holds none, which is why
`strncmp` with 13 characters takes `trackid read` alone. -/
def fbDoOem (cmd : List Char) (s : State σ) : State σ :=
  let arg := cmd.drop 4
  if "trackid write".toList <+: arg then
    { s with storage := d.trackidWrite (cmd.drop 18) s.storage }.send "OKAY"
  else if arg = "trackid read".toList then
    { s with sent := s.sent ++ (d.reply cmd s.storage).map some }
  else if "uart_log_enable".toList <+: arg then oemEnable d "uart_log_enable" uartLogModeFlag s
  else if "uart_log_disable".toList <+: arg then oemDisable d "uart_log_enable" (some "OKAY") s
  else if "fb_mode_set".toList <+: arg then oemEnable d "fb_mode_set" uartLogModeFlag s
  else if "fb_mode_clear".toList <+: arg then oemDisable d "fb_mode_set" (some "OKAY") s
  else if "xct-on".toList <+: arg then oemEnable d "xct" xctOn s
  else if "xct-off".toList <+: arg then oemDisable d "xct" none s
  else if "boot_wait_on".toList <+: arg then oemEnable d "boot_wait" [3, 0, 0, 0] s
  else if "boot_wait_off".toList <+: arg then oemDisable d "boot_wait" none s
  else if "str_ram".toList <+: arg then oemStrRam d (cmd.drop 12) s
  else if "edl".toList <+: arg then s.send "OKAY"
  else s.send "FAILunsupported command"

/-- `fb_do_getvar`, `fb_do_diskinfo` and `fb_do_partinfo`. -/
def fbDoRead (cmd : List Char) (s : State σ) : State σ :=
  { s with sent := s.sent ++ (d.reply cmd s.storage).map some }

/-- `fb_do_diskdump`. -/
def fbDoDiskdump (cmd : List Char) (s : State σ) : State σ :=
  { s with
    transferBuffer := d.diskdump cmd s.storage s.transferBuffer
    sent := s.sent ++ (d.reply cmd s.storage).map some }

end Handlers

section Dispatch

/-- The entries of `cmd_list`. -/
inductive Command
  | reboot
  | flash
  | continueBoot
  | boot
  | erase
  | download
  | ramdump
  | getvar
  | setActive
  | flashing
  | oem
  | diskinfo
  | partinfo
  | diskdump
  deriving DecidableEq

/-- `cmd_name`. -/
def Command.name : Command → List Char
  | .reboot => "reboot".toList
  | .flash => "flash:".toList
  | .continueBoot => "continue".toList
  | .boot => "boot".toList
  | .erase => "erase:".toList
  | .download => "download:".toList
  | .ramdump => "ramdump:".toList
  | .getvar => "getvar:".toList
  | .setActive => "set_active:".toList
  | .flashing => "flashing".toList
  | .oem => "oem".toList
  | .diskinfo => "diskinfo:".toList
  | .partinfo => "partinfo:".toList
  | .diskdump => "diskdump:".toList

/-- `cmd_list`. -/
def cmdList : List Command :=
  [.reboot, .flash, .continueBoot, .boot, .erase, .download, .ramdump, .getvar, .setActive,
    .flashing, .oem, .diskinfo, .partinfo, .diskdump]

variable (cfg : Config) (d : Driver σ)

/-- `handler`. -/
def Command.handler (readable : Bool) (cmd : List Char) : Command → State σ → State σ
  | .reboot => fbDoReboot
  | .flash => fbDoFlash cfg d readable cmd
  | .continueBoot => fbDoContinue d
  | .boot => fbDoBoot d
  | .erase => fbDoErase cfg d cmd
  | .download => fbDoDownload cmd
  | .ramdump => fbDoRamdump cmd
  | .getvar => fbDoRead d cmd
  | .setActive => fbDoSetActive cfg d cmd
  | .flashing => fbDoFlashing cfg readable cmd
  | .oem => fbDoOem d cmd
  | .diskinfo => fbDoRead d cmd
  | .partinfo => fbDoRead d cmd
  | .diskdump => fbDoDiskdump d cmd

/-- `rx_handler`.  It goes on through `cmd_list` behind an entry that matched. -/
def rxHandler (readable : Bool) (cmd : List Char) (s : State σ) : State σ :=
  if s.isRamdump then { s with isRamdump := false }.send "OKAY"
  else
    cmdList.foldl
      (fun s c => if c.name <+: cmd then c.handler cfg d readable cmd s else s) s

/-- What comes in: a command, with what RPMB does while it is handled, or data for the
transfer buffer. -/
inductive Event
  | command (cmd : List Char) (readable : Bool)
  | payload (data : List UInt8)
  deriving DecidableEq

def step (s : State σ) : Event → Option (State σ)
  | .command cmd readable => some (rxHandler cfg d readable cmd s)
  | .payload data => some { s with
      transferBuffer := s.transferBuffer.take s.downloadedDataSize ++ data
      downloadedDataSize := u32 (s.downloadedDataSize + data.length) }

end Dispatch

section Locked

variable (cfg : Config) (d : Driver σ)

/-- The commands of `oem` that a handler answers without a write. -/
def HarmlessOem (cmd : List Char) (s : State σ) : Prop :=
  (∀ w ∈ ["trackid write", "uart_log_enable", "fb_mode_set", "xct-on", "boot_wait_on"],
    ¬w.toList <+: cmd.drop 4) ∧
  (∀ w ∈ [("uart_log_disable", "uart_log_enable"), ("fb_mode_clear", "fb_mode_set"),
    ("xct-off", "xct"), ("boot_wait_off", "boot_wait")],
    w.1.toList <+: cmd.drop 4 → ∀ p ∈ s.sysparams, p.1 ≠ w.2) ∧
  ("str_ram".toList <+: cmd.drop 4 → cmd.drop 12 ≠ "clear".toList ∧ cmd.drop 12 ≠ "save".toList)

instance (cmd : List Char) (s : State σ) : Decidable (HarmlessOem cmd s) :=
  inferInstanceAs (Decidable (_ ∧ _ ∧ _))

/-- What a command of `cmd_list` has to be like to leave the storage of a locked device
alone. -/
def Command.Harmless (readable : Bool) (cmd : List Char) (s : State σ) : Command → Prop
  | .flash => cfg.checkLockState ∧ cfg.useRpmb ∧ s.isFirstBoot ∧ readable
  | .erase => cmd.drop 6 ≠ "wipe".toList ∧ cmd.drop 6 ≠ cfg.ptType ∧
      d.partSize (cmd.drop 6) s.storage = none
  | .setActive => !cfg.abUpdateSupport ∨ (cmd.drop 11 ≠ ['a'] ∧ cmd.drop 11 ≠ ['b'])
  | .oem => HarmlessOem cmd s
  | .continueBoot | .boot => False
  | .reboot | .download | .ramdump | .getvar | .flashing | .diskinfo | .partinfo | .diskdump => True

instance (readable : Bool) (cmd : List Char) (s : State σ) :
    ∀ c : Command, Decidable (c.Harmless cfg d readable cmd s)
  | .flash => inferInstanceAs (Decidable (_ ∧ _))
  | .erase => inferInstanceAs (Decidable (_ ∧ _))
  | .setActive => inferInstanceAs (Decidable (_ ∨ _))
  | .oem => inferInstanceAs (Decidable (HarmlessOem cmd s))
  | .continueBoot | .boot => .isFalse id
  | .reboot | .download | .ramdump | .getvar | .flashing | .diskinfo | .partinfo | .diskdump =>
    .isTrue trivial

/-- Every command of `cmd_list` that the text calls is harmless. -/
def Harmless (s : State σ) : Event → Prop
  | .command cmd readable =>
    s.isRamdump ∨ ∀ c ∈ cmdList, c.name <+: cmd → c.Harmless cfg d readable cmd s
  | .payload _ => True

instance (s : State σ) : ∀ e, Decidable (Harmless cfg d s e)
  | .command _ _ => inferInstanceAs (Decidable (_ ∨ _))
  | .payload _ => .isTrue trivial

/-- A loop that does something for at most one entry of a list. -/
theorem foldl_of_exclusive {α β : Type*} {p : α → Prop} [DecidablePred p] {f : α → β → β} :
    ∀ {l : List α}, (l.Pairwise fun a b => p a → ¬p b) → ∀ s : β,
      l.foldl (fun s a => if p a then f a s else s) s = s ∨
        ∃ a ∈ l, p a ∧ l.foldl (fun s a => if p a then f a s else s) s = f a s := by
  intro l
  induction l with
  | nil => exact fun _ s => .inl rfl
  | cons a l ih =>
    intro h s
    obtain ⟨ha, hl⟩ := List.pairwise_cons.1 h
    by_cases hp : p a
    · have hrest : ∀ s : β, l.foldl (fun s a => if p a then f a s else s) s = s := by
        intro s
        rcases ih hl s with h | ⟨b, hb, hpb, -⟩
        · exact h
        · exact absurd hpb (ha b hb hp)
      exact .inr ⟨a, List.mem_cons_self, hp, by simp [hp, hrest]⟩
    · rcases ih hl s with h | ⟨b, hb, hpb, h⟩
      · exact .inl (by simpa [hp] using h)
      · exact .inr ⟨b, List.mem_cons_of_mem _ hb, hpb, by simpa [hp] using h⟩

/-- No name of `cmd_list` starts with another, so a text calls at most one handler. -/
theorem cmdList_exclusive (cmd : List Char) :
    cmdList.Pairwise fun a b => a.name <+: cmd → ¬b.name <+: cmd := by
  have h : cmdList.Pairwise fun a b => ¬a.name <+: b.name ∧ ¬b.name <+: a.name := by decide
  refine h.imp fun hab ha hb => ?_
  rcases List.prefix_or_prefix_of_prefix ha hb with hle | hle
  · exact hab.1 hle
  · exact hab.2 hle

variable {cfg : Config} {d : Driver σ} {readable : Bool} {cmd : List Char} {s : State σ}

theorem fbDoOem_storage (h : HarmlessOem cmd s) : (fbDoOem d cmd s).storage = s.storage := by
  obtain ⟨hwrite, hremove, hram⟩ := h
  have hdisable : ∀ {name : String} {response : Option String},
      (∀ p ∈ s.sysparams, p.1 ≠ name) → (oemDisable d name response s).storage = s.storage := by
    intro name response hno
    have : s.sysparams.any (·.1 = name) = false := by simpa using hno
    simp [oemDisable, this]
  simp only [List.mem_cons, List.not_mem_nil, or_false, forall_eq_or_imp, forall_eq] at hwrite hremove
  obtain ⟨h₁, h₂, h₃, h₄, h₅⟩ := hwrite
  obtain ⟨r₁, r₂, r₃, r₄⟩ := hremove
  unfold fbDoOem
  simp only [if_neg h₁, if_neg h₂, if_neg h₃, if_neg h₄, if_neg h₅]
  split_ifs with c₁ c₂ c₃ c₄ c₅ c₆
  · rfl
  · exact hdisable (r₁ c₂)
  · exact hdisable (r₂ c₃)
  · exact hdisable (r₃ c₄)
  · exact hdisable (r₄ c₅)
  · obtain ⟨hclear, hsave⟩ := hram c₆
    unfold oemStrRam
    simp only [if_neg hclear, if_neg hsave]
    split_ifs <;> rfl
  · rfl
  · rfl

/-- **A harmless command leaves the storage alone.** -/
theorem Command.Harmless.storage {c : Command} (hlock : s.lockState = 1)
    (h : c.Harmless cfg d readable cmd s) :
    (c.handler cfg d readable cmd s).storage = s.storage := by
  cases c with
  | flash =>
    obtain ⟨hcheck, hrpmb, hfirst, hread⟩ := h
    have hstate : getLockState cfg readable s = 1 := by simp [getLockState, hrpmb, hread, hlock]
    simp only [Command.handler, fbDoFlash, hcheck, hfirst, hstate, and_self, if_true]
    rfl
  | erase =>
    obtain ⟨hwipe, htype, hnone⟩ := h
    simp only [Command.handler, fbDoErase, if_neg hwipe, htype, hnone, ne_eq, not_false_eq_true,
      and_self, if_true]
    rfl
  | setActive =>
    simp only [Command.handler, fbDoSetActive]
    rcases h with h | ⟨ha, hb⟩
    · rw [if_pos h]
      rfl
    · rw [if_neg ha, if_neg hb]
      split_ifs <;> rfl
  | oem => exact fbDoOem_storage h
  | flashing =>
    simp only [Command.handler, fbDoFlashing, setLockState]
    split_ifs <;> rfl
  | ramdump =>
    simp only [Command.handler, fbDoRamdump]
    split_ifs <;> rfl
  | continueBoot => exact h.elim
  | boot => exact h.elim
  | reboot => rfl
  | download => rfl
  | getvar => rfl
  | diskinfo => rfl
  | partinfo => rfl
  | diskdump => rfl

theorem step_storage {e : Event} (hlock : s.lockState = 1) (h : Harmless cfg d s e) {s' : State σ}
    (hs : step cfg d s e = some s') : s'.storage = s.storage := by
  cases e with
  | payload data =>
    cases hs
    rfl
  | command cmd readable =>
    cases hs
    unfold rxHandler
    split_ifs with hram
    · rfl
    · have hall := h.resolve_left hram
      rcases foldl_of_exclusive (f := fun c s => Command.handler cfg d readable cmd c s)
        (cmdList_exclusive cmd) s with hs | ⟨c, hc, hname, hs⟩
      · rw [hs]
      · rw [hs]
        exact (hall c hc hname).storage hlock

/-- **The lock holds for harmless commands.**  While the device stays locked, any sequence
of them and of downloads leaves every partition as it is, after each command. -/
theorem locked_storage_unchanged (cfg : Config) (d : Driver σ) (s : State σ) (events : List Event)
    (hlocked : Machine.Throughout (step cfg d) (fun s => s.lockState = 1) s events)
    (hharmless : Machine.Along (step cfg d) (Harmless cfg d) s events) :
    Machine.Throughout (step cfg d) (fun s' => s'.storage = s.storage) s events :=
  (hlocked.along hharmless).throughout
    (fun _ _ _ hs hok h => (step_storage hok.1 hok.2 h).trans hs) rfl

/-- A disk of named partitions, where erasing leaves zeros. -/
def disk : Driver (List (List Char × List UInt8)) where
  partSize key s := (s.find? (·.1 = key)).map (·.2.length)
  partErase key s := (0, s.map fun p => if p.1 = key then (p.1, p.2.map fun _ => 0) else p)
  partWipeBoot s := (0, s)
  partWritePartial key data size s := (0, s.map fun p =>
    if p.1 = key then (p.1, data.take size ++ p.2.drop size) else p)
  partUpdate _ _ s := s
  envRamdiskSize _ s := s
  abSetActive _ s := s
  trackidWrite _ s := s
  sysparamWrite _ s := s
  ramdumpClear s := (0, s)
  ramdumpSave s := (0, s)
  bootFbContinue s := s
  bootFbBoot _ _ s := s
  reply _ _ := ["OKAY"]
  diskdump _ _ buffer := buffer

/-- A locked device that checks the lock. -/
def lockedDevice : State (List (List Char × List UInt8)) where
  storage := [("boot".toList, [1, 2, 3, 4]), ("userdata".toList, [5, 6, 7, 8])]
  lockState := 1
  isFirstBoot := true
  isRamdump := false
  storeRamdump := false
  downloadSize := 0
  downloadedDataSize := 0
  transferBuffer := []
  sysparams := []
  sent := []

def checked : Config := ⟨true, true, false, "gpt".toList⟩

/-- An image is downloaded, and the lock keeps it from being flashed. -/
theorem locked_storage_unchanged_flash :
    Machine.Throughout (step checked disk) (fun s' => s'.storage = lockedDevice.storage) lockedDevice
      [.command "download:4".toList true, .payload [9, 9, 9, 9], .command "flash:boot".toList true] :=
  locked_storage_unchanged checked disk lockedDevice _ (by decide +kernel) (by decide +kernel)

/-- **The lock does not hold for `erase:`.**  The device is locked before the command and
after it, and the partition is empty. -/
theorem locked_erase :
    Machine.Throughout (step checked disk) (fun s => s.lockState = 1) lockedDevice
      [.command "erase:userdata".toList true] ∧
    ¬Machine.Throughout (step checked disk) (fun s' => s'.storage = lockedDevice.storage)
      lockedDevice [.command "erase:userdata".toList true] := by
  decide +kernel

end Locked

end Fastboot
end LittleKernel
