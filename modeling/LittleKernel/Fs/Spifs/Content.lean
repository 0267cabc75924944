/-
# The contents of files

`spifs_read`, `spifs_write` and `spifs_truncate` on a device whose page operations may
fail: which of the page operations of a call fails, if one does, and what a write that
fails leaves in its page, is part of the call.  The first that fails ends the call.

`flat` is the device as its bytes.  What a write puts there is one `memcpy`
(`flat_writePages`), whatever the pages it is cut into, and a read is one window of it.
`file_content_sound` says of a run of calls what the bytes and the length of each file
are, where

  - a read starts and ends below the 4 GiB that its 32-bit addresses reach, or is
    answered as if it did,
  - no page operation fails in a write that moves the end of the file or writes nothing,
    since the new length is in memory before the data is written and the result says
    how much data was left to write and not whether the table was written.
-/

import LittleKernel.Fs.Spifs.Persist

namespace LittleKernel
namespace Spifs

open Bytes Word

/-! ### Page operations that may fail -/

/-- The device, and the page operation that will fail, counted from the next one, with
what it leaves in its page if it is a write. -/
structure Bus where
  dev : Device
  fail : Option (ℕ × Page)

/-- The next page operation: what is left in the page if it fails. -/
def Bus.tick (b : Bus) : Option Page × Bus :=
  match b.fail with
  | none => (none, b)
  | some (0, page) => (some page, b)
  | some (k + 1, page) => (none, { b with fail := some (k, page) })

variable (g : Geometry)

/-- `spifs_read_page`. -/
def readPageOn (b : Bus) (pageAddr : ℕ) : Option Page × Bus :=
  match b.tick with
  | (some _, b) => (none, b)
  | (none, b) => (spifsReadPage g b.dev pageAddr, b)

/-- `spifs_write_page`. -/
def writePageOn (b : Bus) (pageAddr : ℕ) (page : Page) : Bool × Bus :=
  match b.tick with
  | (some left, b) => (false, { b with dev := spifsWritePage b.dev pageAddr left })
  | (none, b) =>
    if pageAddr < g.pageCount then (true, { b with dev := spifsWritePage b.dev pageAddr page })
    else (false, b)

/-- Page writes until one fails. -/
def runWrites : Bus → List (ℕ × Page) → Bool × Bus
  | b, [] => (true, b)
  | b, w :: writes =>
    match writePageOn g b w.1 w.2 with
    | (false, b) => (false, b)
    | (true, b) => runWrites b writes

/-- `spifs_commit_toc`: whether the table was written. -/
def spifsCommitTocOn (lvl : ℕ) (s : SpifsT) (b : Bus) : Option (Bool × SpifsT × Bus) :=
  (commitWrites lvl g s).map fun writes =>
    match runWrites g b writes with
    | (true, b) =>
      (true, { s with
        generation := u32 (s.generation + 1)
        tocPosition := s.tocPosition.other }, b)
    | (false, b) => (false, s, b)

/-- The whole pages of `spifs_write`: what is left to write, where a page fails. -/
def writeFullPagesOn : ℕ → Bus → ℕ → List UInt8 → Option ℕ × Bus
  | 0, b, _, _ => (none, b)
  | n + 1, b, targetPageId, buf =>
    match writePageOn g b targetPageId (Memory.store (fun _ => 0) 0 (buf.take g.pageSize)) with
    | (false, b) => (some buf.length, b)
    | (true, b) => writeFullPagesOn n b (u32 (targetPageId + 1)) (buf.drop g.pageSize)

/-- A page that is read, changed and written again, with `next` behind it. -/
def updatePage (b : Bus) (targetPageId off : ℕ) (bytes : List UInt8) (left : ℕ)
    (next : Bus → Option ℕ × Bus) : Option ℕ × Bus :=
  match readPageOn g b targetPageId with
  | (none, b) => (some left, b)
  | (some page, b) =>
    match writePageOn g b targetPageId (Memory.store page off bytes) with
    | (false, b) => (some left, b)
    | (true, b) => next b

/-- `spifs_write` behind the leading partial page. -/
def writeRestOn (b : Bus) (targetPageId : ℕ) (buf : List UInt8) : Option ℕ × Bus :=
  let n := buf.length / g.pageSize
  match writeFullPagesOn g n b targetPageId buf with
  | (some left, b) => (some left, b)
  | (none, b) =>
    let targetPageId := u32 (targetPageId + n)
    let buf := buf.drop (n * g.pageSize)
    if buf = [] then (none, b)
    else updatePage g b targetPageId 0 buf buf.length fun b => (none, b)

/-- The data of `spifs_write`. -/
def writePagesOn (b : Bus) (startAddr : ℕ) (buf : List UInt8) : Option ℕ × Bus :=
  let targetPageId := startAddr / g.pageSize
  let pageOffset := startAddr % g.pageSize
  if pageOffset = 0 then writeRestOn g b targetPageId buf
  else
    let nBytes := min buf.length (sub32 (roundup startAddr g.pageSize) startAddr)
    updatePage g b targetPageId pageOffset (buf.take nBytes) buf.length fun b =>
      writeRestOn g b (u32 (targetPageId + 1)) (buf.drop nBytes)

/-! ### The calls -/

/-- The device as its bytes. -/
def flat (dev : Device) : ℕ → UInt8 := fun a => dev (a / g.pageSize) (a % g.pageSize)

/-- `bio_trim_range`, where the end is compared as an `off_t`. -/
def bioTrim (offset len : ℕ) : ℕ :=
  if g.totalSize ≤ offset then 0
  else if u64 (offset + len) < 2 ^ 63 ∧ g.totalSize < u64 (offset + len) then
    g.totalSize - offset
  else len

/-- `spifs_read`, on the file at position `i` of the list: the bytes it reads. -/
def spifsReadOn (s : SpifsT) (b : Bus) (i : ℕ) (off : ℤ) (len : ℕ) :
    Option (Except Status (List UInt8)) :=
  s.files[i]?.map fun file =>
    if off < 0 then .error .errInvalidArgs
    else
      let fileStart := u32 (g.pageSize * file.pageIdx)
      let fileEnd := u32 (fileStart + file.length)
      let readStart := u32 (fileStart + off.toNat)
      let readEnd := u32 (readStart + len)
      let len := if fileEnd ≤ readStart then 0
        else if fileEnd < readEnd then fileEnd - readStart else len
      match b.tick with
      | (some _, _) => .error .errIo
      | (none, b) => .ok (Memory.window (flat g b.dev) readStart (bioTrim g readStart len))

/-- `spifs_write`, on the file at position `i` of the list: how much it says it wrote. -/
def spifsWriteOn (lvl : ℕ) (s : SpifsT) (b : Bus) (i : ℕ) (off : ℤ) (buf : List UInt8) :
    Option (SpifsT × Bus × Except Status ℕ) :=
  match s.files[i]? with
  | none => none
  | some file =>
    if off < 0 then some (s, b, .error .errInvalidArgs)
    else
      let off := off.toNat
      -- an error is returned only where data is left
      if file.capacity < u64 (off + buf.length) then
        some (s, b, if buf.length = 0 then .ok 0 else .error .errOutOfRange)
      else
        let grows := file.length < u64 (off + buf.length)
        let s := if grows then { s with
          files := s.files.set i (file.withLength (off + buf.length)) } else s
        match writePagesOn g b (u32 (off + file.pageIdx * g.pageSize)) buf with
        | (some left, b) => some (s, b, if left = 0 then .ok buf.length else .error .errIo)
        | (none, b) =>
          if grows then
            (spifsCommitTocOn g lvl s b).map fun r => (r.2.1, r.2.2, .ok buf.length)
          else some (s, b, .ok buf.length)

/-- `spifs_truncate`, on the file at position `i` of the list. -/
def spifsTruncateOn (lvl : ℕ) (s : SpifsT) (b : Bus) (i len : ℕ) :
    Option (SpifsT × Bus × Status) :=
  match s.files[i]? with
  | none => none
  | some file =>
    if file.length < len then some (s, b, .errInvalidArgs)
    else
      let s := { s with files := s.files.set i (file.withLength len) }
      (spifsCommitTocOn g lvl s b).map fun r =>
        (r.2.1, r.2.2, if r.1 then .noError else .errIo)

variable {g} {m : ℕ} {dev : Device} {s : SpifsT} {b : Bus}

/-! ### Where no page operation fails -/

theorem Bus.tick_of_fail_none (h : b.fail = none) : b.tick = (none, b) := by
  unfold Bus.tick
  rw [h]

theorem Bus.tick_dev (b : Bus) : b.tick.2.dev = b.dev := by
  unfold Bus.tick
  split <;> rfl

theorem readPageOn_dev (g : Geometry) (b : Bus) (t : ℕ) : (readPageOn g b t).2.dev = b.dev := by
  have h := b.tick_dev
  unfold readPageOn
  split <;> rename_i heq <;> rw [heq] at h <;> exact h

theorem readPageOn_some (g : Geometry) (b : Bus) (t : ℕ) (page : Page) (h : (readPageOn g b t).1 = some page) :
    page = b.dev t := by
  have hd := b.tick_dev
  unfold readPageOn at h
  split at h <;> rename_i heq
  · cases h
  · rw [heq] at hd
    unfold spifsReadPage at h
    split_ifs at h
    rw [← Option.some.inj h, hd]

theorem writePageOn_true (g : Geometry) (b : Bus) (t : ℕ) (page : Page) (h : (writePageOn g b t page).1 = true) :
    (writePageOn g b t page).2.dev = spifsWritePage b.dev t page := by
  have hd := b.tick_dev
  unfold writePageOn at h ⊢
  split at h <;> rename_i heq
  · cases h
  · rw [heq] at hd
    dsimp only at hd h ⊢
    split_ifs at h with hlt
    rw [if_pos hlt, ← hd]

/-- A page write changes no other page, whether it fails or not. -/
theorem writePageOn_of_ne (g : Geometry) (b : Bus) {t p : ℕ} (page : Page) (hp : p ≠ t) :
    (writePageOn g b t page).2.dev p = b.dev p := by
  have hd := b.tick_dev
  unfold writePageOn
  split <;> rename_i heq <;> rw [heq] at hd
  · dsimp only at hd ⊢
    rw [spifsWritePage, Function.update_of_ne hp, hd]
  · dsimp only at hd ⊢
    split_ifs
    · dsimp only
      rw [spifsWritePage, Function.update_of_ne hp, hd]
    · rw [hd]

variable {t : ℕ}

/-- The state of a bus on which nothing fails, after a page write. -/
theorem writePageOn_of_fail_none (h : b.fail = none) (ht : t < g.pageCount) (page : Page) :
    writePageOn g b t page = (true, { b with dev := spifsWritePage b.dev t page }) := by
  unfold writePageOn
  rw [Bus.tick_of_fail_none h]
  simp [ht]

theorem readPageOn_of_fail_none (h : b.fail = none) (ht : t < g.pageCount) :
    readPageOn g b t = (some (b.dev t), b) := by
  unfold readPageOn
  rw [Bus.tick_of_fail_none h]
  simp [spifsReadPage, ht]

variable {writes : List (ℕ × Page)}

/-- Page writes that all succeed. -/
theorem runWrites_true (h : (runWrites g b writes).1 = true) :
    (runWrites g b writes).2.dev = applyWrites b.dev writes := by
  induction writes generalizing b with
  | nil => rfl
  | cons w writes ih =>
    rw [runWrites] at h ⊢
    have hw := writePageOn_true g b w.1 w.2
    split at h <;> rename_i heq
    · cases h
    · rw [heq] at hw
      rw [ih h, hw rfl]
      rfl

theorem runWrites_of_not_mem {p : ℕ} (h : ∀ w ∈ writes, w.1 ≠ p) :
    (runWrites g b writes).2.dev p = b.dev p := by
  induction writes generalizing b with
  | nil => rfl
  | cons w writes ih =>
    have hw := writePageOn_of_ne g b w.2 (h w List.mem_cons_self).symm
    rw [runWrites]
    split <;> rename_i heq <;> rw [heq] at hw
    · exact hw
    · rw [ih fun w' hw' => h w' (List.mem_cons_of_mem _ hw')]
      exact hw

theorem runWrites_of_fail_none (h : b.fail = none)
    (hin : ∀ w ∈ writes, w.1 < g.pageCount) : (runWrites g b writes).1 = true := by
  induction writes generalizing b with
  | nil => rfl
  | cons w writes ih =>
    rw [runWrites, writePageOn_of_fail_none h (hin w List.mem_cons_self)]
    exact ih h fun w' hw' => hin w' (List.mem_cons_of_mem _ hw')

variable {bytes : List UInt8} {next : Bus → Option ℕ × Bus} {dev' : Device}

theorem updatePage_none {t o left : ℕ}
    (hnext : ∀ b', b'.dev = spifsWritePage b.dev t (Memory.store (b.dev t) o bytes) →
      (next b').1 = none → (next b').2.dev = dev')
    (h : (updatePage g b t o bytes left next).1 = none) :
    (updatePage g b t o bytes left next).2.dev = dev' := by
  have hr := readPageOn_some g b t
  have hrd := readPageOn_dev g b t
  unfold updatePage at h ⊢
  split at h <;> rename_i heq
  · cases h
  rename_i page b₁
  rw [heq] at hr hrd
  obtain rfl := hr page rfl
  have hrd : b₁.dev = b.dev := hrd
  have hw := writePageOn_true g b₁ t (Memory.store (b.dev t) o bytes)
  split at h <;> rename_i heq'
  · cases h
  rw [heq'] at hw
  refine hnext _ ?_ h
  have hw := hw rfl
  rw [hrd] at hw
  exact hw

theorem updatePage_of_ne {t o left p : ℕ}
    (hp : p ≠ t) (hnext : ∀ b', (next b').2.dev p = b'.dev p) :
    (updatePage g b t o bytes left next).2.dev p = b.dev p := by
  have hrd := readPageOn_dev g b t
  unfold updatePage
  split <;> rename_i heq <;> rw [heq] at hrd
  · exact congrFun hrd p
  · rename_i page b₁
    have hrd : b₁.dev = b.dev := hrd
    have hw := writePageOn_of_ne g b₁ (Memory.store page o bytes) hp
    split <;> rename_i heq' <;> rw [heq'] at hw
    · rw [← hrd]
      exact hw
    · rw [hnext, ← hrd]
      exact hw

theorem updatePage_of_fail_none (h : b.fail = none) {t o left : ℕ} (ht : t < g.pageCount)
    (bytes : List UInt8) (next : Bus → Option ℕ × Bus) : updatePage g b t o bytes left next =
      next { b with dev := spifsWritePage b.dev t (Memory.store (b.dev t) o bytes) } := by
  unfold updatePage
  rw [readPageOn_of_fail_none h ht]
  simp only
  rw [writePageOn_of_fail_none h ht]

/-! ### The data of a write -/

theorem writeFullPagesOn_none (g : Geometry) (b : Bus) (k t : ℕ) (buf : List UInt8)
    (h : (writeFullPagesOn g k b t buf).1 = none) :
    (writeFullPagesOn g k b t buf).2.dev = writeFullPages g k b.dev t buf := by
  induction k generalizing b t buf with
  | zero => rfl
  | succ k ih =>
    rw [writeFullPagesOn] at h ⊢
    have hw := writePageOn_true g b t (Memory.store (fun _ => 0) 0 (buf.take g.pageSize))
    split at h <;> rename_i heq
    · cases h
    · rw [heq] at hw
      rw [ih _ _ _ h, hw rfl, writeFullPages]

theorem writeFullPagesOn_of_not_mem (b : Bus) {k t p : ℕ} (buf : List UInt8) (ht : t + k < 2 ^ 32)
    (hp : p < t ∨ t + k ≤ p) : (writeFullPagesOn g k b t buf).2.dev p = b.dev p := by
  induction k generalizing b t buf with
  | zero => rfl
  | succ k ih =>
    have hw := writePageOn_of_ne g b (Memory.store (fun _ => 0) 0 (buf.take g.pageSize))
      (show p ≠ t by omega)
    rw [writeFullPagesOn]
    split <;> rename_i heq <;> rw [heq] at hw
    · exact hw
    · rw [u32_of_lt (by omega), ih _ _ (by omega) (by omega)]
      exact hw

theorem writeFullPagesOn_of_fail_none (h : b.fail = none) {k t : ℕ} (ht : t + k ≤ g.pageCount)
    (buf : List UInt8) : writeFullPagesOn g k b t buf =
      (none, { b with dev := writeFullPages g k b.dev t buf }) := by
  have hcount := g.pageCount_lt_two_pow
  induction k generalizing b t buf with
  | zero => rfl
  | succ k ih =>
    rw [writeFullPagesOn, writePageOn_of_fail_none h (by omega)]
    simp only
    have hnext : u32 (t + 1) + k ≤ g.pageCount := by
      rw [u32_of_lt (by omega)]
      omega
    rw [ih (b := { b with
      dev := spifsWritePage b.dev t (Memory.store (fun _ => 0) 0 (buf.take g.pageSize)) }) h hnext]
    rfl

variable {buf : List UInt8}

/-- The pages of the rest of a write, of which the last one may be partial. -/
theorem rest_lt {t last : ℕ} (hlast : t * g.pageSize + buf.length ≤ last * g.pageSize) :
    t + buf.length / g.pageSize ≤ last ∧ (buf.drop (buf.length / g.pageSize * g.pageSize) ≠ [] →
        t + buf.length / g.pageSize < last) := by
  have hps := g.pageSize_pos
  have hdiv := Nat.div_mul_le_self buf.length g.pageSize
  generalize buf.length / g.pageSize = k at hdiv ⊢
  have hmul := Nat.add_mul t k g.pageSize
  refine ⟨Nat.le_of_mul_le_mul_right (show _ ≤ last * g.pageSize by omega) hps, fun hne => ?_⟩
  have hlen : k * g.pageSize < buf.length := by
    by_contra hge
    exact hne (List.drop_eq_nil_of_le (by omega))
  exact Nat.lt_of_mul_lt_mul_right (show _ < last * g.pageSize by omega)

theorem writeRestOn_none (h : (writeRestOn g b t buf).1 = none) :
    (writeRestOn g b t buf).2.dev = writeRest g b.dev t buf := by
  have hfull := writeFullPagesOn_none g b (buf.length / g.pageSize) t buf
  unfold writeRestOn at h ⊢
  rw [writeRest]
  dsimp only at h ⊢
  split at h <;> rename_i heq
  · cases h
  rename_i b₁
  rw [heq] at hfull
  have hfull : b₁.dev = _ := hfull rfl
  split_ifs at h ⊢
  · exact hfull
  · refine updatePage_none (fun b' hb' _ => ?_) h
    rw [← hfull]
    exact hb'

theorem writeRestOn_of_not_mem (b : Bus) {t p last : ℕ}
    (hlast : t * g.pageSize + buf.length ≤ last * g.pageSize) (hlast32 : last < 2 ^ 32)
    (hp : p < t ∨ last ≤ p) : (writeRestOn g b t buf).2.dev p = b.dev p := by
  obtain ⟨hle, hlt⟩ := rest_lt hlast
  unfold writeRestOn
  dsimp only
  generalize buf.length / g.pageSize = k at hle hlt ⊢
  have hfull : (writeFullPagesOn g k b t buf).2.dev p = b.dev p :=
    writeFullPagesOn_of_not_mem b buf (by omega) (by omega)
  split <;> rename_i heq <;> rw [heq] at hfull
  · exact hfull
  · split_ifs with hnil
    · exact hfull
    · have hlt := hlt hnil
      refine (updatePage_of_ne ?_ fun _ => rfl).trans hfull
      rw [u32_of_lt (by omega)]
      omega

theorem writeRestOn_of_fail_none (h : b.fail = none)
    (hlast : t * g.pageSize + buf.length ≤ g.pageCount * g.pageSize) :
    writeRestOn g b t buf = (none, { b with dev := writeRest g b.dev t buf }) := by
  have hcount := g.pageCount_lt_two_pow
  obtain ⟨hle, hlt⟩ := rest_lt hlast
  unfold writeRestOn
  dsimp only
  rw [writeFullPagesOn_of_fail_none h hle, writeRest]
  dsimp only
  split_ifs with hnil
  · rfl
  · have hlt := hlt hnil
    rw [updatePage_of_fail_none (b := { b with
      dev := writeFullPages g (buf.length / g.pageSize) b.dev t buf }) h
      (by rw [u32_of_lt (by omega)]; exact hlt)]

/-- The leading partial page of a write and the place of the rest behind it. -/
structure Lead (g : Geometry) (a last n : ℕ) (buf : List UInt8) : Prop where
  page_lt : a / g.pageSize < last
  next : u32 (a / g.pageSize + 1) = a / g.pageSize + 1
  fits : a % g.pageSize + (buf.take n).length ≤ g.pageSize
  rest : buf.drop n = [] ∨ (a / g.pageSize + 1) * g.pageSize = a + (buf.take n).length
  rest_le : (a / g.pageSize + 1) * g.pageSize + (buf.drop n).length ≤ last * g.pageSize

theorem lead {a last : ℕ} (ha : a < 2 ^ 32) (hoff : a % g.pageSize ≠ 0)
    (hlast : a + buf.length ≤ last * g.pageSize) (hlast32 : last < 2 ^ 32) :
    Lead g a last (min buf.length (sub32 (roundup a g.pageSize) a)) buf := by
  have hps := g.pageSize_pos
  have hdiv := Nat.div_add_mod a g.pageSize
  have hmod := Nat.mod_lt a hps
  rw [sub32_roundup ha hoff]
  rw [Nat.mul_comm] at hdiv
  have hnext : (a / g.pageSize + 1) * g.pageSize = a / g.pageSize * g.pageSize + g.pageSize := by
    rw [Nat.add_mul, Nat.one_mul]
  have hlt : a / g.pageSize < last :=
    Nat.lt_of_mul_lt_mul_right (show _ < last * g.pageSize by omega)
  have hle : (a / g.pageSize + 1) * g.pageSize ≤ last * g.pageSize := Nat.mul_le_mul_right _ hlt
  rcases Nat.lt_or_ge ((a / g.pageSize + 1) * g.pageSize - a) buf.length with hmore | hless
  · rw [min_eq_right hmore.le]
    refine ⟨hlt, u32_of_lt (by omega), ?_, .inr ?_, ?_⟩
    · rw [List.length_take]
      omega
    · rw [List.length_take]
      omega
    · rw [List.length_drop]
      omega
  · rw [min_eq_left hless]
    refine ⟨hlt, u32_of_lt (by omega), ?_, .inl List.drop_length, by simpa using hle⟩
    rw [List.length_take]
    omega

theorem writePagesOn_none {a : ℕ} (h : (writePagesOn g b a buf).1 = none) :
    (writePagesOn g b a buf).2.dev = writePages g b.dev a buf := by
  unfold writePagesOn at h ⊢
  rw [writePages]
  dsimp only at h ⊢
  split_ifs at h ⊢
  · exact writeRestOn_none h
  · refine updatePage_none (fun b' hb' hnone => ?_) h
    rw [writeRestOn_none hnone, hb']

/-- A write changes no page outside its file, whether it fails or not. -/
theorem writePagesOn_of_not_mem (b : Bus) {a p first last : ℕ} (ha : a < 2 ^ 32)
    (hfirst : first * g.pageSize ≤ a) (hlast : a + buf.length ≤ last * g.pageSize)
    (hlast32 : last < 2 ^ 32) (hp : p < first ∨ last ≤ p) :
    (writePagesOn g b a buf).2.dev p = b.dev p := by
  have hps := g.pageSize_pos
  have hdiv := Nat.div_add_mod a g.pageSize
  have hpage : first ≤ a / g.pageSize := (Nat.le_div_iff_mul_le hps).2 hfirst
  rw [Nat.mul_comm] at hdiv
  unfold writePagesOn
  dsimp only
  split_ifs with hoff
  · exact writeRestOn_of_not_mem b (by omega) hlast32 (by omega)
  · have hl := lead ha hoff hlast hlast32
    have hlt := hl.page_lt
    refine updatePage_of_ne (by omega) fun b' => ?_
    rw [hl.next]
    exact writeRestOn_of_not_mem b' hl.rest_le hlast32 (by omega)

theorem writePagesOn_of_fail_none (h : b.fail = none) {a : ℕ} (ha : a < 2 ^ 32)
    (hlast : a + buf.length ≤ g.pageCount * g.pageSize) :
    writePagesOn g b a buf = (none, { b with dev := writePages g b.dev a buf }) := by
  have hdiv := Nat.div_add_mod a g.pageSize
  rw [Nat.mul_comm] at hdiv
  unfold writePagesOn
  rw [writePages]
  dsimp only
  split_ifs with hoff
  · exact writeRestOn_of_fail_none h (by omega)
  · have hl := lead ha hoff hlast g.pageCount_lt_two_pow
    rw [updatePage_of_fail_none h hl.page_lt, hl.next]
    refine writeRestOn_of_fail_none ?_ hl.rest_le
    exact h

/-! ### The bytes of a write -/

theorem flat_writePage (dev : Device) (p : ℕ) (page : Page) (a : ℕ) :
    flat g (spifsWritePage dev p page) a
      = if a / g.pageSize = p then page (a % g.pageSize) else flat g dev a := by
  unfold flat spifsWritePage
  split_ifs with h
  · rw [h, Function.update_self]
  · rw [Function.update_of_ne h]

/-- A part of a page is a range of bytes. -/
theorem flat_store_page (dev : Device) (p : ℕ) {o : ℕ} {l : List UInt8}
    (h : o + l.length ≤ g.pageSize) :
    flat g (spifsWritePage dev p (Memory.store (dev p) o l))
      = Memory.store (flat g dev) (p * g.pageSize + o) l := by
  have hps := g.pageSize_pos
  funext a
  have hdiv := Nat.div_add_mod a g.pageSize
  have hmod := Nat.mod_lt a hps
  rw [Nat.mul_comm] at hdiv
  rw [flat_writePage]
  unfold Memory.store
  split_ifs with hp ho hle hle
  · subst hp
    rw [show a - (a / g.pageSize * g.pageSize + o) = a % g.pageSize - o by omega]
    rfl
  · subst hp
    omega
  · subst hp
    omega
  · subst hp
    rfl
  · -- the byte is in a later page
    have hlt : p < a / g.pageSize := by
      rcases Nat.lt_or_ge (a / g.pageSize) p with hlt | hge
      · have := Nat.mul_le_mul_right g.pageSize (Nat.succ_le_of_lt hlt)
        rw [Nat.succ_mul] at this
        omega
      · omega
    have := Nat.mul_le_mul_right g.pageSize (Nat.succ_le_of_lt hlt)
    rw [Nat.succ_mul] at this
    rw [List.getElem?_eq_none (by omega), Option.getD_none]
  · rfl

/-- A whole page is a range of bytes, whatever was in the buffer. -/
theorem flat_full_page (dev : Device) (p : ℕ) {l : List UInt8} (h : l.length = g.pageSize) :
    flat g (spifsWritePage dev p (Memory.store (fun _ => 0) 0 l))
      = Memory.store (flat g dev) (p * g.pageSize) l := by
  have hps := g.pageSize_pos
  rw [← Nat.add_zero (p * g.pageSize), ← flat_store_page dev p (by omega)]
  funext a
  rw [flat_writePage, flat_writePage]
  split_ifs with hp
  · have hmod := Nat.mod_lt a hps
    simp only [Memory.store, Nat.zero_le, if_true, Nat.sub_zero]
    rw [List.getElem?_eq_getElem (by omega)]
    rfl
  · rfl

theorem flat_writeFullPages (dev : Device) {k t : ℕ} (ht : t + k < 2 ^ 32)
    (hlen : k * g.pageSize ≤ buf.length) : flat g (writeFullPages g k dev t buf)
      = Memory.store (flat g dev) (t * g.pageSize) (buf.take (k * g.pageSize)) := by
  induction k generalizing dev t buf with
  | zero => simp [writeFullPages]
  | succ k ih =>
    have hmul : (k + 1) * g.pageSize = k * g.pageSize + g.pageSize := by
      rw [Nat.add_mul, Nat.one_mul]
    have hfirst : (buf.take g.pageSize).length = g.pageSize := by
      rw [List.length_take]
      omega
    have hsplit : buf.take ((k + 1) * g.pageSize)
        = buf.take g.pageSize ++ (buf.drop g.pageSize).take (k * g.pageSize) := by
      rw [hmul, Nat.add_comm, List.take_add]
    have hnext : (t + 1) * g.pageSize = t * g.pageSize + (buf.take g.pageSize).length := by
      rw [Nat.add_mul, Nat.one_mul, hfirst]
    rw [writeFullPages, u32_of_lt (by omega), ih _ (by omega) (by rw [List.length_drop]; omega),
      flat_full_page dev t hfirst, hsplit, hnext, Memory.store_append]

theorem flat_writeRest (dev : Device) {t last : ℕ}
    (hlast : t * g.pageSize + buf.length ≤ last * g.pageSize) (hlast32 : last < 2 ^ 32) :
    flat g (writeRest g dev t buf) = Memory.store (flat g dev) (t * g.pageSize) buf := by
  obtain ⟨hle, hlt⟩ := rest_lt hlast
  have hdiv := Nat.div_mul_le_self buf.length g.pageSize
  have hdm := Nat.div_add_mod buf.length g.pageSize
  have hmod := Nat.mod_lt buf.length g.pageSize_pos
  rw [Nat.mul_comm] at hdm
  rw [writeRest]
  generalize buf.length / g.pageSize = k at *
  have htake : (buf.take (k * g.pageSize)).length = k * g.pageSize := by
    rw [List.length_take]
    omega
  split_ifs with hnil
  · have hall : buf.length ≤ k * g.pageSize := by
      have := congrArg List.length hnil
      rw [List.length_drop, List.length_nil] at this
      omega
    rw [flat_writeFullPages dev (by omega) hdiv, List.take_of_length_le hall]
  · have hlt := hlt hnil
    have hplace : (t + k) * g.pageSize + 0
        = t * g.pageSize + (buf.take (k * g.pageSize)).length := by
      rw [Nat.add_mul, htake, Nat.add_zero]
    rw [u32_of_lt (by omega), flat_store_page _ _ (by rw [List.length_drop]; omega),
      flat_writeFullPages dev (by omega) hdiv, hplace, Memory.store_append, List.take_append_drop]

/-- **A write is one `memcpy`**, whatever pages it is cut into. -/
theorem flat_writePages (dev : Device) {a last : ℕ} (ha : a < 2 ^ 32)
    (hlast : a + buf.length ≤ last * g.pageSize) (hlast32 : last < 2 ^ 32) :
    flat g (writePages g dev a buf) = Memory.store (flat g dev) a buf := by
  have hdiv := Nat.div_add_mod a g.pageSize
  rw [Nat.mul_comm] at hdiv
  rw [writePages]
  dsimp only
  split_ifs with hoff
  · have ha' : a / g.pageSize * g.pageSize = a := by omega
    rw [flat_writeRest dev (show a / g.pageSize * g.pageSize + buf.length ≤ last * g.pageSize by omega)
      hlast32, ha']
  · have hl := lead ha hoff hlast hlast32
    generalize min buf.length (sub32 (roundup a g.pageSize) a) = n at hl
    rw [hl.next, flat_writeRest _ hl.rest_le hlast32, flat_store_page _ _ hl.fits, hdiv]
    rcases hl.rest with hnil | hnext
    · have htake : buf.take n = buf := by
        have := List.take_append_drop n buf
        rwa [hnil, List.append_nil] at this
      rw [hnil, Memory.store_nil, htake]
    · rw [hnext, Memory.store_append, List.take_append_drop]

/-! ### What is left where a write fails -/

theorem writeFullPagesOn_left {k t left : ℕ} (hlen : k * g.pageSize ≤ buf.length)
    (h : (writeFullPagesOn g k b t buf).1 = some left) : 0 < left := by
  have hps := g.pageSize_pos
  induction k generalizing b t buf with
  | zero => cases h
  | succ k ih =>
    have hmul : (k + 1) * g.pageSize = k * g.pageSize + g.pageSize := by
      rw [Nat.add_mul, Nat.one_mul]
    rw [writeFullPagesOn] at h
    split at h
    · cases h
      omega
    · exact ih (by rw [List.length_drop]; omega) h

theorem updatePage_left {t o left left' : ℕ}
    (hnext : ∀ b', (next b').1 = some left' → 0 < left') (hleft : 0 < left)
    (h : (updatePage g b t o bytes left next).1 = some left') : 0 < left' := by
  unfold updatePage at h
  split at h
  · cases h
    exact hleft
  split at h
  · cases h
    exact hleft
  · exact hnext _ h

theorem writeRestOn_left {t left : ℕ} (h : (writeRestOn g b t buf).1 = some left) : 0 < left := by
  unfold writeRestOn at h
  dsimp only at h
  split at h <;> rename_i heq
  · cases h
    exact writeFullPagesOn_left (Nat.div_mul_le_self _ _) (congrArg Prod.fst heq)
  · split_ifs at h with hnil
    exact updatePage_left (fun _ h => by cases h) (List.length_pos_of_ne_nil hnil) h

/-- A write that fails has something left to write, if it had anything to write. -/
theorem writePagesOn_left {a left : ℕ} (hbuf : buf ≠ [])
    (h : (writePagesOn g b a buf).1 = some left) : 0 < left := by
  unfold writePagesOn at h
  dsimp only at h
  split_ifs at h
  · exact writeRestOn_left h
  · exact updatePage_left (fun _ h => writeRestOn_left h) (List.length_pos_of_ne_nil hbuf) h

/-! ### The table in memory and the copies on the device -/

/-- Between two calls: the table in memory is well-formed, and the copy written last is
not newer.  The other copy may hold anything: a commit that fails leaves it half written. -/
structure Live (g : Geometry) (m : ℕ) (s : SpifsT) (dev : Device) : Prop where
  layout : Layout g m s.numEntries
  table : Table g m s.numEntries s.files
  generation_lt : s.generation < 2 ^ 32
  header : (headerAt g dev s.tocPosition).magic = fsMagic →
    (headerAt g dev s.tocPosition).generation ≤ s.generation

theorem Stored.live (h : Stored g m s dev) : Live g m s dev where
  layout := h.layout
  table := h.table
  generation_lt := h.generation_lt
  header _ := by rw [h.header]

variable (g m s) in
/-- The page is not in the copy that a commit writes. -/
def OffCopy (p : ℕ) : Prop := ∀ j < m, p ≠ tocPageAt g s.tocPosition.other j

/-- Writes outside the current copy keep the relation to it. -/
theorem Live.frame (h : Live g m s dev)
    (hsame : ∀ j < m, dev' (tocPageAt g s.tocPosition j) = dev (tocPageAt g s.tocPosition j)) :
    Live g m s dev' := by
  refine ⟨h.layout, h.table, h.generation_lt, ?_⟩
  rw [headerAt_congr (hsame 0 h.layout.pages_pos)]
  exact h.header

/-- What a commit does, whether or not its page writes succeed. -/
structure Committed (g : Geometry) (m : ℕ) (s : SpifsT) (b : Bus) (ok : Bool) (s' : SpifsT)
    (b' : Bus) : Prop where
  live : Live g m s' b'.dev
  files : s'.files = s.files
  frame : ∀ p, OffCopy g m s p → b'.dev p = b.dev p
  taken : b.fail = none → ok = true
  mount : ok = true → s.generation + 1 < 2 ^ 32 → spifsMount g b'.dev = .ok s'

/-- A commit comes to an end and leaves a live table, whatever page writes fail. -/
theorem Live.commit (h : Live g m s b.dev) (lvl : ℕ) (htwo : 2 ≤ g.perPage) :
    ∃ ok s' b', spifsCommitTocOn g lvl s b = some (ok, s', b') ∧ Committed g m s b ok s' b' := by
  have hl := h.layout
  have hfits := hl.fits
  obtain ⟨writes, hw, hpages⟩ := commitWrites_spec lvl hl htwo
  have himage := hl.length_image (u32 (s.generation + 1)) s.files
  have hin : ∀ w ∈ writes, w.1 < g.pageCount := fun w hwm => by
    obtain ⟨j, hj, hjw⟩ := commitWrites_mem hl hw hwm
    rw [hjw]
    exact tocPageAt_lt (by omega) _
  have hoff : ∀ p, OffCopy g m s p → (runWrites g b writes).2.dev p = b.dev p := by
    intro p hp
    refine runWrites_of_not_mem fun w hwm => ?_
    obtain ⟨j, hj, hjw⟩ := commitWrites_mem hl hw hwm
    rw [hjw]
    exact (hp j hj).symm
  have hcur : ∀ j < m, OffCopy g m s (tocPageAt g s.tocPosition j) :=
    fun j hj i hi => (tocPageAt_ne_other hl hi hj s.tocPosition).symm
  have htrue : (runWrites g b writes).1 = true →
      (runWrites g b writes).2.dev = applyWrites b.dev writes := runWrites_true
  have hok : b.fail = none → (runWrites g b writes).1 = true :=
    fun hf => runWrites_of_fail_none hf hin
  rw [spifsCommitTocOn, hw, Option.map_some]
  generalize runWrites g b writes = r at hoff htrue hok ⊢
  obtain ⟨ok, b'⟩ := r
  cases ok with
  | false =>
    refine ⟨_, _, _, rfl, h.frame fun j hj => hoff _ (hcur j hj), rfl, hoff, ?_, ?_⟩
    · exact fun hf => hok hf
    · exact fun hf => absurd hf (by simp)
  | true =>
    have hdev : b'.dev = applyWrites b.dev writes := htrue rfl
    have hholds : Holds g b'.dev s.tocPosition.other 0
        (tocImage (u32 (s.generation + 1)) s.numEntries s.files) :=
      hdev ▸ holds_applyWrites hl himage hpages
    refine ⟨_, _, _, rfl, ⟨hl, h.table, u32_lt _, fun _ => ?_⟩, rfl, hoff, fun _ => rfl,
      fun _ hgen => ?_⟩
    · exact (congrArg TocHeader.generation
        (getTocGeneration_of_holds hl (u32_lt _) hholds).1).le
    · obtain ⟨dev', hcommit, hstored⟩ := commit_stored lvl hl htwo h.table hgen h.header
      rw [spifsCommitToc, hw, Option.map_some, u32_of_lt hgen] at hcommit
      obtain rfl : applyWrites b.dev writes = dev' := congrArg Prod.snd (Option.some.inj hcommit)
      rw [hdev, u32_of_lt hgen]
      exact hstored.mount

/-! ### Runs -/

/-- A mounted file system and its device. -/
structure Mounted where
  s : SpifsT
  dev : Device

/-- A call on a file, that is `spifs_open` and the call on what it finds, with the page
operation of it that fails, if one does. -/
inductive FileOp where
  | read (name : CString) (off : ℤ) (len : ℕ) (fail : Option (ℕ × Page))
  | write (name : CString) (off : ℤ) (buf : List UInt8) (fail : Option (ℕ × Page))
  | truncate (name : CString) (len : ℕ) (fail : Option (ℕ × Page))

/-- `find_file` for a file that was opened, with its entry. -/
def Mounted.find (v : Mounted) (name : CString) : Option (ℕ × TocFile) :=
  (findFile v.s.files (trimName name)).bind fun i => v.s.files[i]?.map fun file => (i, file)

/-- One call. -/
def fileStep (lvl : ℕ) (g : Geometry) (v : Mounted) : FileOp → Option Mounted
  | .read _ _ _ _ => some v
  | .write name off buf fail =>
    match v.find name with
    | none => some v
    | some (i, _) => (spifsWriteOn g lvl v.s ⟨v.dev, fail⟩ i off buf).map fun r => ⟨r.1, r.2.1.dev⟩
  | .truncate name len fail =>
    match v.find name with
    | none => some v
    | some (i, _) => (spifsTruncateOn g lvl v.s ⟨v.dev, fail⟩ i len).map fun r => ⟨r.1, r.2.1.dev⟩

/-- What a write does to the bytes of the device and to the length of its file: a write
that succeeds stores its bytes, at most one copy of the table is written besides, and
where the file grows, a mount finds the new length; after an error the lengths are as
they were. -/
def Written (g : Geometry) (m : ℕ) (v : Mounted) (i : ℕ) (file : TocFile) (off : ℤ)
    (buf : List UInt8) (v' : Mounted) : Except Status ℕ → Prop
  | .ok n => n = buf.length ∧
      (∀ a, v'.s.files = v.s.files ∨ OffCopy g m v.s (a / g.pageSize) → flat g v'.dev a =
        Memory.store (flat g v.dev) (file.pageIdx * g.pageSize + off.toNat) buf a) ∧
      ((v'.s.files = v.s.files ∧ (buf ≠ [] → off.toNat + buf.length ≤ file.length)) ∨
        (v'.s.files = v.s.files.set i (file.withLength (off.toNat + buf.length)) ∧
          file.length < off.toNat + buf.length ∧ spifsMount g v'.dev = .ok v'.s))
  | .error _ => v'.s.files = v.s.files

/-- What a call is to do. -/
def FileOp.Good (lvl : ℕ) (g : Geometry) (m : ℕ) (v : Mounted) : FileOp → Prop
  | .read name off len fail => ∀ i file bytes, v.find name = some (i, file) →
      spifsReadOn g v.s ⟨v.dev, fail⟩ i off len = some (.ok bytes) →
        bytes = Memory.window (flat g v.dev) (file.pageIdx * g.pageSize + off.toNat)
          (min len (file.length - off.toNat))
  | .write name off buf fail => ∀ i file s' b' r, v.find name = some (i, file) →
      spifsWriteOn g lvl v.s ⟨v.dev, fail⟩ i off buf = some (s', b', r) →
        Written g m v i file off buf ⟨s', b'.dev⟩ r
  | .truncate name len fail => ∀ i file s' b' r, v.find name = some (i, file) →
      spifsTruncateOn g lvl v.s ⟨v.dev, fail⟩ i len = some (s', b', r) →
        (∀ a, OffCopy g m v.s (a / g.pageSize) → flat g b'.dev a = flat g v.dev a) ∧
        (r = .noError → s'.files = v.s.files.set i (file.withLength len) ∧ len ≤ file.length)

/-- The 32-bit start and end addresses of a read decide as the offsets do. -/
def ReadFits (g : Geometry) (file : TocFile) (off len : ℕ) : Prop :=
  let fileStart := g.pageSize * file.pageIdx
  if off < file.length then
    off + len ≤ file.length ∨ fileStart + file.length < u32 (fileStart + off + len)
  else len = 0 ∨ fileStart + file.length ≤ u32 (fileStart + off)

/-- The condition on a call. -/
def FileOp.Meets (g : Geometry) (v : Mounted) : FileOp → Prop
  | .read name off len _ => ∀ i file, v.find name = some (i, file) → 0 ≤ off →
      ReadFits g file off.toNat len
  | .write name off buf fail => ∀ i file, v.find name = some (i, file) → 0 ≤ off →
      u64 (off.toNat + buf.length) ≤ file.capacity →
        off.toNat + buf.length < 2 ^ 64 ∧
        (file.length < off.toNat + buf.length ∨ buf = [] → fail = none) ∧
        (file.length < off.toNat + buf.length → v.s.generation + 1 < 2 ^ 32)
  | .truncate _ _ _ => True

/-- A file of a mounted file system, its pages inside the device and apart from the table. -/
structure Located (g : Geometry) (m : ℕ) (v : Mounted) (i : ℕ) (file : TocFile) : Prop where
  entry : v.s.files[i]? = some file
  ok : FileOk g file
  front : m ≤ file.pageIdx
  back : file.pageIdx + file.pages g + m ≤ g.pageCount
  withLength : ∀ len ≤ file.capacity,
    Table g m v.s.numEntries (v.s.files.set i (file.withLength len))

variable {v : Mounted} {i : ℕ} {file : TocFile}

variable {name : CString}

theorem Live.located (h : Live g m v.s v.dev)
    (hf : v.find name = some (i, file)) : Located g m v i file := by
  unfold Mounted.find at hf
  obtain ⟨i', hi, hf⟩ := Option.bind_eq_some_iff.1 hf
  obtain ⟨file', hfile, heq⟩ := Option.map_eq_some_iff.1 hf
  obtain ⟨rfl, rfl⟩ := Prod.mk.inj heq
  obtain ⟨j, rfl, hj⟩ := findFile_eq_some hi
  obtain ⟨hlo, hhi⟩ := h.table.middle_range h.layout hj hfile
  exact ⟨hfile, h.table.ok _ (List.mem_of_getElem? hfile), hlo, hhi,
    fun len hlen => h.table.withLength hj hfile hlen⟩

/-- The bytes of a file lie below the end of the device. -/
theorem Located.end_lt (h : Located g m v i file) (hm : 0 < m) :
    file.pageIdx * g.pageSize + file.capacity < g.pageCount * g.pageSize := by
  have hps := g.pageSize_pos
  have hmul := Nat.add_mul file.pageIdx (file.pages g) g.pageSize
  have hback := h.back
  rw [h.ok.capacity_eq, ← hmul]
  exact Nat.mul_lt_mul_of_pos_right (by omega) hps

theorem pageCount_mul_le (g : Geometry) : g.pageCount * g.pageSize ≤ g.totalSize :=
  Nat.div_mul_le_self _ _

/-- **Reads.** -/
theorem Live.read_good (h : Live g m v.s v.dev) (hsize : g.totalSize ≤ 2 ^ 32) (lvl : ℕ)
    {off : ℤ} {len : ℕ} {fail : Option (ℕ × Page)}
    (hmeets : (FileOp.read name off len fail).Meets g v) :
    (FileOp.read name off len fail).Good lvl g m v := by
  intro i file bytes hf hr
  have hloc := h.located hf
  have hend := hloc.end_lt h.layout.pages_pos
  have htot := pageCount_mul_le g
  have hlen := hloc.ok.length_le
  unfold spifsReadOn at hr
  rw [hloc.entry, Option.map_some] at hr
  have hr := Option.some.inj hr
  by_cases hneg : off < 0
  · rw [if_pos hneg] at hr
    cases hr
  rw [if_neg hneg] at hr
  have hfits := hmeets i file hf (by omega)
  generalize off.toNat = o at hr hfits ⊢
  dsimp only at hr
  rw [Nat.mul_comm] at hend
  unfold ReadFits at hfits
  dsimp only at hfits
  rw [Nat.mul_comm file.pageIdx]
  generalize g.pageSize * file.pageIdx = start at hr hfits hend ⊢
  rw [u32_of_lt (show start < 2 ^ 32 by omega), u32_of_lt (show start + file.length < 2 ^ 32 by omega)]
    at hr
  split at hr
  · cases hr
  rename_i b' hb'
  have hdev : b'.dev = v.dev := by
    have := Bus.tick_dev ⟨v.dev, fail⟩
    rw [hb'] at this
    exact this
  rw [hdev] at hr
  have hr := (Except.ok.inj hr).symm
  by_cases hin : o < file.length
  · rw [if_pos hin] at hfits
    rw [u32_of_lt (show start + o < 2 ^ 32 by omega), if_neg (by omega)] at hr
    -- the read ends at the end of the file or before it
    have hcut : (if start + file.length < u32 (start + o + len) then start + file.length - (start + o)
        else len) = min len (file.length - o) := by
      have := Nat.mod_le (start + o + len) (2 ^ 32)
      unfold u32 at hfits ⊢
      split_ifs <;> omega
    rw [hcut] at hr
    have htrim : bioTrim g (start + o) (min len (file.length - o)) = min len (file.length - o) := by
      unfold bioTrim
      rw [if_neg (by omega), if_neg (by unfold u64; omega)]
    rw [htrim] at hr
    exact hr
  · rw [if_neg hin] at hfits
    have hzero : bytes = [] := by
      rcases hfits with rfl | hge
      · rw [hr]
        have : (if start + file.length ≤ u32 (start + o) then 0
            else if start + file.length < u32 (u32 (start + o) + 0) then
              start + file.length - u32 (start + o) else 0) = 0 := by
          unfold u32
          split_ifs <;> omega
        rw [this]
        unfold bioTrim
        split_ifs <;> first | rfl | (unfold u64 at *; omega)
      · rw [hr, if_pos hge]
        unfold bioTrim
        split_ifs <;> first | rfl | (unfold u64 at *; omega)
    rw [hzero, show file.length - o = 0 by omega, Nat.min_zero]
    rfl

/-- The data of a write within the capacity of its file. -/
theorem Located.writePagesOn (h : Located g m v i file) (hl : Layout g m v.s.numEntries)
    (hsize : g.totalSize ≤ 2 ^ 32) {o : ℕ} (hcap : o + buf.length ≤ file.capacity)
    {b b' : Bus} {left : Option ℕ} (hb : b.dev = v.dev)
    (hw : writePagesOn g b (u32 (o + file.pageIdx * g.pageSize)) buf = (left, b')) :
    (∀ pos, ∀ j < m, b'.dev (tocPageAt g pos j) = v.dev (tocPageAt g pos j)) ∧
      (left = none → flat g b'.dev
        = Memory.store (flat g v.dev) (file.pageIdx * g.pageSize + o) buf) ∧
      (b.fail = none → left = none ∧ b'.fail = none) := by
  have hend := h.end_lt hl.pages_pos
  have htot := pageCount_mul_le g
  have hback := h.back
  have hfront := h.front
  have hcount := g.pageCount_lt_two_pow
  have hmul := Nat.add_mul file.pageIdx (file.pages g) g.pageSize
  have hc := h.ok.capacity_eq
  have haddr : o + file.pageIdx * g.pageSize < 2 ^ 32 := by omega
  rw [u32_of_lt haddr] at hw
  have hlast : o + file.pageIdx * g.pageSize + buf.length
      ≤ (file.pageIdx + file.pages g) * g.pageSize := by omega
  refine ⟨fun pos j hj => ?_, fun hnone => ?_, fun hfail => ?_⟩
  · have hsame := writePagesOn_of_not_mem (g := g) b (p := tocPageAt g pos j) haddr
      (Nat.le_add_left _ _) hlast (by omega) (by cases pos <;> simp only [tocPageAt] <;> omega)
    rw [hw, hb] at hsame
    exact hsame
  · have hpure : b'.dev = writePages g b.dev (o + file.pageIdx * g.pageSize) buf := by
      have hnone : (Spifs.writePagesOn g b (o + file.pageIdx * g.pageSize) buf).1 = none := by
        rw [hw]
        exact hnone
      rw [← writePagesOn_none hnone, hw]
    rw [hpure, hb, flat_writePages v.dev haddr hlast (by omega), Nat.add_comm o]
  · have hgood := writePagesOn_of_fail_none hfail haddr
      (show o + file.pageIdx * g.pageSize + buf.length ≤ g.pageCount * g.pageSize by omega)
    rw [hw] at hgood
    obtain ⟨rfl, rfl⟩ := Prod.mk.inj hgood
    exact ⟨rfl, hfail⟩

/-- Another length makes another list. -/
theorem set_withLength_ne {files : List TocFile} (hentry : files[i]? = some file) {len : ℕ}
    (hlen : file.length < len) (hcap : len ≤ file.capacity) :
    files.set i (file.withLength len) ≠ files := by
  intro hsame
  have hi : i < files.length := (List.getElem?_eq_some_iff.1 hentry).1
  rw [← hsame, List.getElem?_set_self hi] at hentry
  have hu : u32 len = file.length := congrArg TocFile.length (Option.some.inj hentry)
  have hlt := file.capacity_lt
  rw [u32_of_lt (by omega)] at hu
  omega

theorem store_flat_of_nil {o : ℕ} (hbuf : buf = [])
    (a : ℕ) (h : dev' = v.dev) : flat g dev' a = Memory.store (flat g v.dev) o buf a := by
  rw [hbuf, Memory.store_nil, h]

/-- **Writes.** -/
theorem Live.write_good (h : Live g m v.s v.dev) (hsize : g.totalSize ≤ 2 ^ 32)
    (htwo : 2 ≤ g.perPage) (lvl : ℕ) {off : ℤ}
    {fail : Option (ℕ × Page)} (hmeets : (FileOp.write name off buf fail).Meets g v)
    (hf : v.find name = some (i, file)) :
    ∃ s' b' r, spifsWriteOn g lvl v.s ⟨v.dev, fail⟩ i off buf = some (s', b', r) ∧
      Live g m s' b'.dev ∧ Written g m v i file off buf ⟨s', b'.dev⟩ r := by
  have hloc := h.located hf
  unfold spifsWriteOn
  rw [hloc.entry]
  dsimp only
  by_cases hneg : off < 0
  · rw [if_pos hneg]
    exact ⟨_, _, _, rfl, h, rfl⟩
  rw [if_neg hneg]
  have hmeets := hmeets i file hf (by omega)
  unfold Written
  generalize off.toNat = o at hmeets ⊢
  by_cases hbig : file.capacity < u64 (o + buf.length)
  · rw [if_pos hbig]
    refine ⟨_, _, _, rfl, h, ?_⟩
    by_cases hnil : buf.length = 0
    · have hbuf : buf = [] := List.length_eq_zero_iff.1 hnil
      rw [if_pos hnil]
      exact ⟨hnil.symm, fun a _ => store_flat_of_nil hbuf a rfl,
        .inl ⟨rfl, fun hne => absurd hbuf hne⟩⟩
    · rw [if_neg hnil]
  rw [if_neg hbig]
  obtain ⟨hwrap, hfail, hgen⟩ := hmeets (by omega)
  rw [u64_of_lt hwrap] at hbig ⊢
  have hcap : o + buf.length ≤ file.capacity := by omega
  cases hw : Spifs.writePagesOn g ⟨v.dev, fail⟩ (u32 (o + file.pageIdx * g.pageSize)) buf with
  | mk left b' =>
  obtain ⟨hpages, hbytes, hnofail⟩ := hloc.writePagesOn h.layout hsize hcap rfl hw
  have hlive : Live g m v.s b'.dev := h.frame fun j hj => hpages _ j hj
  by_cases hgrow : file.length < o + buf.length
  · -- no page operation fails, and the table is written
    obtain ⟨rfl, hfail'⟩ := hnofail (hfail (.inl hgrow))
    rw [if_pos hgrow]
    dsimp only
    rw [if_pos hgrow]
    have hlive' : Live g m { v.s with
        files := v.s.files.set i (file.withLength (o + buf.length)) } b'.dev :=
      ⟨h.layout, hloc.withLength _ hcap, h.generation_lt, hlive.header⟩
    obtain ⟨ok, s', b'', hcommit, hc⟩ := hlive'.commit lvl htwo
    refine ⟨s', b'', .ok buf.length, by rw [hcommit]; rfl, hc.live, rfl, fun a ha => ?_,
      .inr ⟨hc.files, hgrow, hc.mount (hc.taken hfail') (hgen hgrow)⟩⟩
    rw [← hbytes rfl]
    refine congrFun (hc.frame _ ?_) _
    rcases ha with hsame | hoff
    · -- the list has changed
      exact absurd (hc.files.symm.trans hsame) (set_withLength_ne hloc.entry hgrow hcap)
    · exact hoff
  · rw [if_neg hgrow]
    cases left with
    | none =>
      dsimp only
      rw [if_neg hgrow]
      exact ⟨_, _, _, rfl, hlive, rfl, fun a _ => congrFun (hbytes rfl) a,
        .inl ⟨rfl, fun _ => by omega⟩⟩
    | some left =>
      refine ⟨_, _, _, rfl, hlive, ?_⟩
      -- a write of nothing cannot fail, and otherwise something is left
      have hbuf : buf ≠ [] := fun hnil => by
        obtain ⟨hnone, -⟩ := hnofail (hfail (.inr hnil))
        cases hnone
      have hleft := writePagesOn_left hbuf (congrArg Prod.fst hw)
      rw [if_neg (by omega)]

/-- **Truncations.** -/
theorem Live.truncate_good (h : Live g m v.s v.dev) (htwo : 2 ≤ g.perPage) (lvl : ℕ)
    (len : ℕ) (fail : Option (ℕ × Page)) (hf : v.find name = some (i, file)) :
    ∃ s' b' r, spifsTruncateOn g lvl v.s ⟨v.dev, fail⟩ i len = some (s', b', r) ∧
      Live g m s' b'.dev ∧ (∀ a, OffCopy g m v.s (a / g.pageSize) → flat g b'.dev a = flat g v.dev a) ∧
      (r = .noError → s'.files = v.s.files.set i (file.withLength len) ∧ len ≤ file.length) := by
  have hloc := h.located hf
  unfold spifsTruncateOn
  rw [hloc.entry]
  dsimp only
  by_cases hbig : file.length < len
  · rw [if_pos hbig]
    exact ⟨_, _, _, rfl, h, fun _ _ => rfl, fun hr => by cases hr⟩
  rw [if_neg hbig]
  have hlen := hloc.ok.length_le
  have hlive' : Live g m { v.s with files := v.s.files.set i (file.withLength len) } v.dev :=
    ⟨h.layout, hloc.withLength _ (by omega), h.generation_lt, h.header⟩
  obtain ⟨ok, s', b', hcommit, hc⟩ := Live.commit (b := ⟨v.dev, fail⟩) hlive' lvl htwo
  refine ⟨s', b', _, by rw [hcommit]; rfl, hc.live, fun a ha => congrFun (hc.frame _ ha) _,
    fun _ => ⟨hc.files, by omega⟩⟩

/-- **One operation** that meets its condition does what it should, and keeps the table live. -/
theorem Live.step (h : Live g m v.s v.dev) (hsize : g.totalSize ≤ 2 ^ 32) (htwo : 2 ≤ g.perPage)
    (lvl : ℕ) {op : FileOp} (hmeets : op.Meets g v) :
    (∃ v', fileStep lvl g v op = some v' ∧ Live g m v'.s v'.dev) ∧ op.Good lvl g m v := by
  cases op with
  | read name off len fail => exact ⟨⟨v, rfl, h⟩, h.read_good hsize lvl hmeets⟩
  | write name off buf fail =>
    constructor
    · unfold fileStep
      dsimp only
      cases hf : v.find name with
      | none => exact ⟨v, rfl, h⟩
      | some found =>
        obtain ⟨i, file⟩ := found
        obtain ⟨s', b', r, hw, hlive, -⟩ := h.write_good hsize htwo lvl hmeets hf
        dsimp only
        exact ⟨⟨s', b'.dev⟩, by rw [hw]; rfl, hlive⟩
    · intro i file s' b' r hf hw
      obtain ⟨s₁, b₁, r₁, hw₁, -, hwritten⟩ := h.write_good hsize htwo lvl hmeets hf
      obtain ⟨rfl, rfl, rfl⟩ : s₁ = s' ∧ b₁ = b' ∧ r₁ = r := by simpa [hw] using hw₁.symm
      exact hwritten
  | truncate name len fail =>
    constructor
    · unfold fileStep
      dsimp only
      cases hf : v.find name with
      | none => exact ⟨v, rfl, h⟩
      | some found =>
        obtain ⟨i, file⟩ := found
        obtain ⟨s', b', r, hw, hlive, -⟩ := h.truncate_good htwo lvl len fail hf
        dsimp only
        exact ⟨⟨s', b'.dev⟩, by rw [hw]; rfl, hlive⟩
    · intro i file s' b' r hf hw
      obtain ⟨s₁, b₁, r₁, hw₁, -, htrunc⟩ := h.truncate_good htwo lvl len fail hf
      obtain ⟨rfl, rfl, rfl⟩ : s₁ = s' ∧ b₁ = b' ∧ r₁ = r := by simpa [hw] using hw₁.symm
      exact htrunc

/-- **What files hold.**  On a mounted file system whose pages hold more than one slot, on a
device of at most 4 GiB, every call of every run whose calls meet the condition does what it
is to do: a read gives the bytes of its file up to its length, a write that succeeds changes
its bytes and no others and has put a new length where a mount finds it, and one that fails
leaves the lengths alone; and no call stops. -/
theorem file_content_sound (lvl : ℕ) (g : Geometry) (m : ℕ) (s : SpifsT) (dev : Device)
    (hs : Stored g m s dev) (htwo : 2 ≤ g.perPage) (hsize : g.totalSize ≤ 2 ^ 32)
    (ops : List FileOp)
    (hops : Machine.Along (fileStep lvl g) (fun v op => op.Meets g v) ⟨s, dev⟩ ops) :
    (∃ v, Machine.run (fileStep lvl g) ⟨s, dev⟩ ops = some v) ∧
      Machine.Along (fileStep lvl g) (fun v op => op.Good lvl g m v) ⟨s, dev⟩ ops := by
  have hlive : Live g m s dev := hs.live
  have hstep : ∀ v op v', Live g m v.s v.dev → op.Meets g v → fileStep lvl g v op = some v' →
      Live g m v'.s v'.dev := by
    intro v op v' hv hop hstep
    obtain ⟨v₁, h₁, hv₁⟩ := (hv.step hsize htwo lvl hop).1
    obtain rfl : v₁ = v' := Option.some.inj (h₁.symm.trans hstep)
    exact hv₁
  have hprogress : ∀ v op, Live g m v.s v.dev → op.Meets g v →
      ∃ v', fileStep lvl g v op = some v' ∧ Live g m v'.s v'.dev :=
    fun v op hv hop => (hv.step hsize htwo lvl hop).1
  have hthrough : Machine.Throughout (fileStep lvl g) (fun v => Live g m v.s v.dev) ⟨s, dev⟩ ops :=
    hops.throughout hstep hlive
  exact ⟨hops.run_isSome hprogress hlive,
    (hthrough.along hops).imp fun v op h => (h.1.step hsize htwo lvl h.2).2⟩

/-- A small file system with one file of five bytes. -/
def smallFile : SpifsT :=
  { formatted smallGeometry 2 with
    generation := 4
    tocPosition := .back
    files := spifsAddAscending (formatted smallGeometry 2).files (newFile 2 5 128 (trimName nameX)) }

theorem small_file_stored : ∃ dev, Stored smallGeometry 2 smallFile dev := by
  obtain ⟨dev, -, h⟩ := small_stored fun _ _ => 0
  have ht : Table smallGeometry 2 (formatted smallGeometry 2).numEntries smallFile.files :=
    h.table.create (show createCheck (formatted smallGeometry 2) (trimName nameX) 5 = .noError by decide)
      (by decide) (by decide) rfl (by decide)
  obtain ⟨dev', -, h'⟩ := commit_stored (s := { formatted smallGeometry 2 with
    files := smallFile.files }) 2 h.layout (by decide) ht (by decide) fun _ => by rw [h.header]
  exact ⟨dev', h'⟩

/-- A read, a write that makes the file longer and a truncation. -/
theorem file_content_sound_small : ∃ dev, Stored smallGeometry 2 smallFile dev ∧
    (∃ v, Machine.run (fileStep 2 smallGeometry) ⟨smallFile, dev⟩
      [.read nameX 0 10 none, .write nameX 3 [1, 2, 3] none, .truncate nameX 2 (some (0, fun _ => 0))]
        = some v) ∧
    Machine.Along (fileStep 2 smallGeometry) (fun v op => op.Good 2 smallGeometry 2 v)
      ⟨smallFile, dev⟩ [.read nameX 0 10 none, .write nameX 3 [1, 2, 3] none,
        .truncate nameX 2 (some (0, fun _ => 0))] := by
  obtain ⟨dev, hs⟩ := small_file_stored
  refine ⟨dev, hs, file_content_sound 2 smallGeometry 2 smallFile dev hs (by decide) (by decide) _ ?_⟩
  refine ⟨fun i file hf _ => ?_, fun v hv => ⟨fun i file _ _ _ => ⟨by decide, fun _ => rfl, fun _ => ?_⟩,
    fun _ _ => ⟨trivial, fun _ _ => trivial⟩⟩⟩
  · have hfind : (⟨smallFile, dev⟩ : Mounted).find nameX
        = some (1, newFile 2 5 128 (trimName nameX)) := rfl
    obtain ⟨rfl, rfl⟩ := Prod.mk.inj (Option.some.inj (hfind.symm.trans hf))
    unfold ReadFits
    decide
  · cases hv
    show smallFile.generation + 1 < 2 ^ 32
    decide

/-- Every call does what it is to do, whatever page operations fail. -/
def ContentSound : Prop :=
  ∀ (lvl : ℕ) (g : Geometry) (m : ℕ) (s : SpifsT) (dev : Device), Stored g m s dev →
    2 ≤ g.perPage → g.totalSize ≤ 2 ^ 32 → ∀ ops : List FileOp,
      Machine.Along (fileStep lvl g) (fun v op => op.Good lvl g m v) ⟨s, dev⟩ ops

/-- **A read 4 GiB behind the start of a file** starts at its first byte. -/
theorem read_wraps : ¬ ContentSound := by
  intro hall
  obtain ⟨dev, hs⟩ := small_file_stored
  have hgood := (hall 2 smallGeometry 2 smallFile dev hs (by decide) (by decide)
    [.read nameX 4294967296 5 none]).1
  have hread : spifsReadOn smallGeometry smallFile ⟨dev, none⟩ 1 4294967296 5
      = some (.ok (Memory.window (flat smallGeometry dev) 256 5)) := by
    have hentry : smallFile.files[1]? = some (newFile 2 5 128 (trimName nameX)) := rfl
    have hstart : u32 (u32 (smallGeometry.pageSize * (newFile 2 5 128 (trimName nameX)).pageIdx)
        + Int.toNat 4294967296) = 256 := by decide
    have hend : u32 (u32 (smallGeometry.pageSize * (newFile 2 5 128 (trimName nameX)).pageIdx)
        + (newFile 2 5 128 (trimName nameX)).length) = 261 := by decide
    unfold spifsReadOn
    rw [hentry, Option.map_some, if_neg (by decide)]
    dsimp only
    rw [hstart, hend, Bus.tick_of_fail_none rfl]
    simp [u32, bioTrim, smallGeometry, u64]
  have hbytes := hgood 1 (newFile 2 5 128 (trimName nameX)) _ rfl hread
  have hlen := congrArg List.length hbytes
  rw [Memory.length_window, Memory.length_window] at hlen
  exact absurd hlen (by decide)

end Spifs
end LittleKernel
