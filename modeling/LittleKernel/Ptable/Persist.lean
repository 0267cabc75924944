/-
# A partition table survives a rescan

A table that `ptable_write` has put on the device is found again by
`ptable_scan`, entry for entry, exactly when it fits one block of the device
(`ptable_persists_iff`): the writer accepts any table that fits the "ptable"
partition, which has room for sixteen entries and is rounded up to whole blocks,
while the scanner refuses a `total_length` beyond `block_size`.

The rest of the scan is the first publication over again.  `Ok` says what the
calls keep: the registered devices are the device and one subdevice for each
entry, and every entry has passed the checks of `ptable_publish`.  No partition
may be called like the device itself, since `bio_open` would then find the device
where `ptable_unpublish` looks for the partition.
-/

import LittleKernel.Lib.Machine
import LittleKernel.Ptable.Basic
import Mathlib.Data.List.Nodup
import Mathlib.Data.List.Perm.Basic

namespace LittleKernel
namespace Ptable

open Bytes Memory Word Machine

/-! ### The on-disk format -/

@[simp] theorem Entry.length_encode (e : Entry) : e.encode.length = 32 := by
  simp [Entry.encode, e.name_length]

@[simp] theorem Header.length_encode (h : Header) : h.encode.length = 16 := by
  simp [Header.encode]

theorem Entry.decode_encode (e : Entry) : Entry.decode e.encode = e := by
  obtain ⟨offset, length, flags, name, ho, hl, hf, hn⟩ := e
  have h₁ : field (le 8 offset ++ (le 8 length ++ (le 4 flags ++ name))) 0 8 = le 8 offset := by
    simpa using field_append [] (le 8 offset) (le 8 length ++ (le 4 flags ++ name))
  have h₂ : field (le 8 offset ++ (le 8 length ++ (le 4 flags ++ name))) 8 8 = le 8 length := by
    simpa using field_append (le 8 offset) (le 8 length) (le 4 flags ++ name)
  have h₃ : field (le 8 offset ++ (le 8 length ++ (le 4 flags ++ name))) 16 4 = le 4 flags := by
    simpa using field_append (le 8 offset ++ le 8 length) (le 4 flags) name
  have h₄ : field (le 8 offset ++ (le 8 length ++ (le 4 flags ++ name))) 20 12 = name := by
    simpa [hn] using field_append (le 8 offset ++ (le 8 length ++ le 4 flags)) name []
  simp only [Entry.decode, Entry.encode, h₁, h₂, h₃, h₄, ofLe_le_of_lt ho, ofLe_le_of_lt hl,
    ofLe_le_of_lt hf]

theorem Header.decode_encode {h : Header} (h₁ : h.magic < 256 ^ 4) (h₂ : h.crc32 < 256 ^ 4)
    (h₃ : h.generation < 256 ^ 4) (h₄ : h.totalLength < 256 ^ 4) :
    Header.decode h.encode = h := by
  obtain ⟨magic, crc, gen, len⟩ := h
  have e₁ : field (le 4 magic ++ (le 4 crc ++ (le 4 gen ++ le 4 len))) 0 4 = le 4 magic := by
    simpa using field_append [] (le 4 magic) (le 4 crc ++ (le 4 gen ++ le 4 len))
  have e₂ : field (le 4 magic ++ (le 4 crc ++ (le 4 gen ++ le 4 len))) 4 4 = le 4 crc := by
    simpa using field_append (le 4 magic) (le 4 crc) (le 4 gen ++ le 4 len)
  have e₃ : field (le 4 magic ++ (le 4 crc ++ (le 4 gen ++ le 4 len))) 8 4 = le 4 gen := by
    simpa using field_append (le 4 magic ++ le 4 crc) (le 4 gen) (le 4 len)
  have e₄ : field (le 4 magic ++ (le 4 crc ++ (le 4 gen ++ le 4 len))) 12 4 = le 4 len := by
    simpa using field_append (le 4 magic ++ (le 4 crc ++ le 4 gen)) (le 4 len) []
  simp only [Header.decode, Header.encode, e₁, e₂, e₃, e₄, ofLe_le_of_lt h₁, ofLe_le_of_lt h₂,
    ofLe_le_of_lt h₃, ofLe_le_of_lt h₄]

theorem length_tableImage (crc32 : ℕ → List UInt8 → ℕ) (gen : ℕ) (es : List Entry) :
    (tableImage crc32 gen es).length = ptableLength es.length := by
  simp [tableImage, ptableLength, Nat.mul_comm]

/-! ### Entries that can be published -/

variable {d : Device}

/-- What `ptable_publish` asks of an entry on the device itself. -/
structure EntryOk (d : Device) (e : Entry) : Prop where
  valid : validateEntry d .base e = true
  aligned : e.offset % d.blockSize = 0 ∧ e.length % d.blockSize = 0
  length_pos : 0 < e.length
  publishes : ∃ geo, subdeviceGeometry d .base (u32 (e.offset / d.blockSize))
    (u32 (e.length / d.blockSize)) = .ok geo

theorem Device.blockSize_pos (d : Device) : 0 < d.blockSize := Nat.two_pow_pos _

/-- The device has fewer than `2 ^ 63` bytes. -/
theorem Device.totalSize_lt (d : Device) : Dev.base.totalSize d < 2 ^ 63 := by
  have h₁ : d.blockSize ≤ 2 ^ 31 := Nat.pow_le_pow_right (by norm_num) (by have := d.blockShift_lt; omega)
  have h₂ := d.blockCount_lt
  calc Dev.base.totalSize d = d.blockCount * d.blockSize := rfl
    _ ≤ d.blockCount * 2 ^ 31 := Nat.mul_le_mul_left _ h₁
    _ < 2 ^ 63 := by omega

/-- A valid entry lies on the device. -/
theorem EntryOk.fits {e : Entry} (h : EntryOk d e) :
    e.offset + e.length ≤ Dev.base.totalSize d := by
  have hv := h.valid
  have h₁ := e.offset_lt
  have h₂ := e.length_lt
  simp only [validateEntry, Bool.and_eq_true, Bool.not_eq_true', decide_eq_false_iff_not] at hv
  obtain ⟨⟨⟨hw, ht⟩, -⟩, -⟩ := hv
  unfold u64 at hw ht
  omega

/-- The subdevice of an entry. -/
def Entry.subdev (d : Device) (e : Entry) (geo : Option Geo) : Dev :=
  .sub .base e.cname (u32 (e.offset / d.blockSize)) (u32 (e.length / d.blockSize)) geo

@[simp] theorem Entry.name_subdev (d : Device) (e : Entry) (geo : Option Geo) :
    (e.subdev d geo).name d = e.cname := rfl

theorem EntryOk.start_eq {e : Entry} (h : EntryOk d e) :
    u32 (e.offset / d.blockSize) * d.blockSize = e.offset := by
  have hle : e.offset / d.blockSize ≤ d.blockCount :=
    Nat.div_le_of_le_mul (by rw [Nat.mul_comm]; exact (Nat.le_add_right _ _).trans h.fits)
  rw [u32_of_lt (hle.trans_lt d.blockCount_lt),
    Nat.div_mul_cancel (Nat.dvd_of_mod_eq_zero h.aligned.1)]

theorem EntryOk.count_eq {e : Entry} (h : EntryOk d e) :
    u32 (e.length / d.blockSize) * d.blockSize = e.length := by
  have hle : e.length / d.blockSize ≤ d.blockCount :=
    Nat.div_le_of_le_mul (by rw [Nat.mul_comm]; exact (Nat.le_add_left _ _).trans h.fits)
  rw [u32_of_lt (hle.trans_lt d.blockCount_lt),
    Nat.div_mul_cancel (Nat.dvd_of_mod_eq_zero h.aligned.2)]

theorem EntryOk.totalSize_subdev {e : Entry} (h : EntryOk d e) (geo : Option Geo) :
    (e.subdev d geo).totalSize d = e.length := h.count_eq

/-- A transfer at the start of a partition is one at its offset on the device. -/
theorem EntryOk.extent_subdev {e : Entry} (h : EntryOk d e) (geo : Option Geo) {len : ℕ}
    (hlen : len ≤ e.length) : (e.subdev d geo).extent d 0 len = (e.offset, len) := by
  have hfit := h.fits
  have hpos := h.length_pos
  have hsub : bioTrimRange d (e.subdev d geo) 0 len = len := by
    rw [bioTrimRange, h.totalSize_subdev]
    split_ifs <;> omega
  have hbase : bioTrimRange d .base e.offset len = len := by
    rw [bioTrimRange]
    split_ifs <;> omega
  rw [Entry.subdev] at hsub ⊢
  rw [Dev.extent, Dev.extent, hsub, Nat.zero_add, h.start_eq, hbase]

/-! ### Reading back what was written -/

/-- A read on the device that does not reach its end. -/
theorem bioRead_base (disk : ℕ → UInt8) {off len : ℕ} (h : off + len ≤ Dev.base.totalSize d)
    (hlen : 0 < len) : bioRead d .base disk off len = window disk off len := by
  rw [bioRead, Dev.extent, bioTrimRange, if_neg (by omega), if_neg (by omega)]

/-! ### The invariant of the calls -/

/-- Between two calls: the registered devices are the device and, by name, one
subdevice for each entry. -/
structure Ok (d : Device) (s : State) (subs : List Dev) : Prop where
  bdevs : s.bdevs = .base :: subs
  names : (subs.map (Dev.name d)).Perm (s.list.map Entry.cname)
  published : ∀ x ∈ subs, ∃ e ∈ s.list, ∃ geo, x = e.subdev d geo
  entries : ∀ e ∈ s.list, EntryOk d e
  nodup : (s.list.map Entry.cname).Nodup
  ne_device : ∀ e ∈ s.list, e.cname ≠ d.name
  gen_lt : s.gen < 256 ^ 4

theorem ok_init (disk : ℕ → UInt8) : Ok d (.init disk) [] where
  bdevs := rfl
  names := .refl _
  published x h := by simp at h
  entries e h := by simp [State.init] at h
  nodup := List.nodup_nil
  ne_device e h := by simp [State.init] at h
  gen_lt := by simp [State.init]

/-- Unregistering every partition leaves the device alone. -/
theorem foldl_bioUnregister (es : List Entry) {subs : List Dev}
    (hn : (subs.map (Dev.name d)).Perm (es.map Entry.cname)) (hd : ∀ e ∈ es, e.cname ≠ d.name) :
    es.foldl (fun bdevs e => bioUnregister d bdevs e.cname) (.base :: subs) = [.base] := by
  induction es generalizing subs with
  | nil =>
    have : subs = [] := by simpa using hn
    rw [this]
    rfl
  | cons e es ih =>
    have hne : ¬ (d.name = e.cname) := fun h => hd e List.mem_cons_self h.symm
    have hstep : bioUnregister d (.base :: subs) e.cname
        = .base :: subs.eraseP fun x => x.name d = e.cname := by
      simp [bioUnregister, Dev.name, hne]
    rw [List.foldl_cons, hstep]
    refine ih ?_ fun e' he' => hd e' (List.mem_cons_of_mem _ he')
    have herase : (subs.map (Dev.name d)).erase e.cname
        = (subs.eraseP fun x => x.name d = e.cname).map (Dev.name d) := by
      rw [List.erase_eq_eraseP', List.eraseP_map]
      rfl
    rw [← herase]
    simpa using hn.erase e.cname

theorem Ok.reset {s : State} {subs : List Dev} (h : Ok d s subs) :
    ptableReset d s = ⟨s.disk, [.base], none, 0, []⟩ := by
  rw [ptableReset, h.bdevs, foldl_bioUnregister s.list h.names h.ne_device]

theorem perm_pushEntry (e : Entry) : ∀ l : List Entry, (pushEntry e l).Perm (e :: l)
  | [] => .refl _
  | x :: l => by
      rw [pushEntry]
      split_ifs
      · exact .refl _
      · exact ((perm_pushEntry e l).cons x).trans (.swap e x l)

variable {s s' : State} {subs : List Dev} {e : Entry}

theorem ptableFind_isSome_iff (s : State) (name : CString) :
    (ptableFind s name).isSome ↔ ∃ x ∈ s.list, x.cname = name := by
  simp [ptableFind, List.find?_isSome]

/-- The checks of `ptable_publish` and `bio_publish_subdevice` on the device. -/
theorem publishCheck_eq_none_iff : publishCheck d .base s e = none ↔
    validateEntry d .base e = true ∧ (∀ x ∈ s.list, x.cname ≠ e.cname) ∧
      (e.offset % d.blockSize = 0 ∧ e.length % d.blockSize = 0) ∧
      e.offset < u64 (e.offset + e.length) ∧ u64 (e.offset + e.length) ≤ Dev.base.totalSize d := by
  have hf : ¬ (ptableFind s e.cname).isSome ↔ ∀ x ∈ s.list, x.cname ≠ e.cname := by
    rw [ptableFind_isSome_iff]
    simp
  rw [← hf, publishCheck]
  split_ifs <;> simp_all
  omega

/-- Publishing an entry that has passed the checks once, under a name that is free. -/
theorem EntryOk.publish (h : EntryOk d e) (hb : s.bdev = some .base)
    (hreg : s.bdevs = .base :: subs) (hfree : ∀ x ∈ s.list, x.cname ≠ e.cname) :
    ∃ geo, ptablePublish d s e = ({ s with
      bdevs := .base :: (subs ++ [e.subdev d geo])
      list := pushEntry e s.list }, none) := by
  obtain ⟨geo, hgeo⟩ := h.publishes
  have hfit := h.fits
  have hpos := h.length_pos
  have htot := d.totalSize_lt
  have hchk : publishCheck d .base s e = none := by
    refine publishCheck_eq_none_iff.2 ⟨h.valid, hfree, h.aligned, ?_⟩
    rw [u64_of_lt (by omega)]
    omega
  refine ⟨geo, ?_⟩
  simp [ptablePublish, hb, hchk, bioPublishSubdevice, bioOpen, hreg, Dev.name, hgeo, Entry.subdev]

/-- `ptable_publish` on the device either changes nothing or adds an entry that
has passed its checks. -/
theorem Ok.publish (h : Ok d s subs) (hb : s.bdev = some .base) (hne : e.cname ≠ d.name) :
    (∃ err, ptablePublish d s e = (s, some err)) ∨
      ∃ geo, EntryOk d e ∧ (ptablePublish d s e).2 = none ∧
        (ptablePublish d s e).1 = { s with
          bdevs := .base :: (subs ++ [e.subdev d geo])
          list := pushEntry e s.list } ∧
        Ok d (ptablePublish d s e).1 (subs ++ [e.subdev d geo]) := by
  cases hchk : publishCheck d .base s e with
  | some err => exact .inl ⟨err, by simp [ptablePublish, hb, hchk]⟩
  | none =>
    obtain ⟨hv, hfree, hal, hlt, hle⟩ := publishCheck_eq_none_iff.1 hchk
    cases hgeo : subdeviceGeometry d .base (u32 (e.offset / d.blockSize))
        (u32 (e.length / d.blockSize)) with
    | error err =>
      -- no device has the name, so unpublishing the failed entry is harmless
      refine .inl ⟨err, ?_⟩
      have hnone : bioUnregister d s.bdevs e.cname = s.bdevs := by
        refine List.eraseP_of_forall_not fun x hx => ?_
        rw [h.bdevs] at hx
        rcases List.mem_cons.1 hx with rfl | hx
        · simp [Dev.name, hne.symm]
        · obtain ⟨x', hx', geo, rfl⟩ := h.published x hx
          simp [Entry.subdev, Dev.name, hfree x' hx']
      simp [ptablePublish, hb, hchk, bioPublishSubdevice, bioOpen, h.bdevs, Dev.name, hgeo]
      rw [← h.bdevs, hnone, ← hb]
    | ok geo =>
      have hpos : 0 < e.length := by
        rcases Nat.eq_zero_or_pos e.length with h0 | h0
        · have := e.offset_lt
          simp [h0, u64_of_lt this] at hlt
        · exact h0
      have he : EntryOk d e := ⟨hv, hal, hpos, geo, hgeo⟩
      obtain ⟨geo, hp⟩ := he.publish hb h.bdevs hfree
      have hperm := perm_pushEntry e s.list
      refine .inr ⟨geo, he, by rw [hp], by rw [hp], ?_⟩
      rw [hp]
      refine ⟨rfl, ?_, fun x hx => ?_, fun x hx => ?_, ?_, fun x hx => ?_, h.gen_lt⟩
      · rw [List.map_append]
        refine (h.names.append_right _).trans (.trans ?_ (hperm.map _).symm)
        simp [Entry.subdev, Dev.name]
      · simp only [List.mem_append, List.mem_singleton] at hx
        rcases hx with hx | rfl
        · obtain ⟨x', hx', geo', rfl⟩ := h.published x hx
          exact ⟨x', hperm.mem_iff.2 (List.mem_cons_of_mem _ hx'), geo', rfl⟩
        · exact ⟨e, hperm.mem_iff.2 List.mem_cons_self, geo, rfl⟩
      · rcases List.mem_cons.1 (hperm.mem_iff.1 hx) with rfl | hx
        · exact he
        · exact h.entries x hx
      · rw [(hperm.map _).nodup_iff, List.map_cons, List.nodup_cons]
        exact ⟨by simpa using hfree, h.nodup⟩
      · rcases List.mem_cons.1 (hperm.mem_iff.1 hx) with rfl | hx
        · exact hne
        · exact h.ne_device x hx

variable {crc32 : ℕ → List UInt8 → ℕ}

/-- `ptable_write` changes the device and the generation only. -/
theorem ptableWrite_frame (crc32 : ℕ → List UInt8 → ℕ) (s : State) :
    ∃ disk gen, (ptableWrite d crc32 s).1 = { s with disk := disk, gen := gen } ∧
      (gen = s.gen ∨ gen = u32 (s.gen + 1)) := by
  unfold ptableWrite
  split
  · exact ⟨s.disk, s.gen, rfl, .inl rfl⟩
  split
  · exact ⟨s.disk, s.gen, rfl, .inl rfl⟩
  dsimp only
  split_ifs <;> first
    | exact ⟨s.disk, s.gen, rfl, .inl rfl⟩
    | exact ⟨_, _, rfl, .inr rfl⟩

theorem Ok.write (h : Ok d s subs) (crc32 : ℕ → List UInt8 → ℕ) :
    Ok d (ptableWrite d crc32 s).1 subs := by
  obtain ⟨disk, gen, he, hgen⟩ := ptableWrite_frame (d := d) crc32 s
  rw [he]
  refine ⟨h.bdevs, h.names, h.published, h.entries, h.nodup, h.ne_device, ?_⟩
  rcases hgen with rfl | rfl
  · exact h.gen_lt
  · exact u32_lt _

variable {name : CString}

/-- The name an entry was made with, when there is room for it. -/
theorem Entry.cname_make (offset length : ℕ) (h : name.bytes.length ≤ 11) :
    (Entry.make offset length name).cname = name := by
  have hl : (name.padded 12).length = 12 := CString.length_padded (by omega)
  rw [Entry.cname, Entry.make]
  simp only
  rw [List.take_of_length_le (by omega), CString.ofBytes_padded (by omega)]

/-- The state between two calls. -/
def Good (d : Device) (s : State) : Prop :=
  ∃ subs, Ok d s subs ∧
    (s.bdev = none ∨ s.bdev = some .base ∧ ∃ e ∈ s.list, e.cname = ptablePartName)

theorem good_reset (h : Ok d s subs) : Good d (ptableReset d s) := by
  rw [h.reset]
  exact ⟨[], ok_init s.disk, .inl rfl⟩

/-- A call that fails with a reset, or succeeds in a good state, ends in one. -/
theorem good_resetOnError {r : State × Option Err} (h : Ok d r.1 subs)
    (hb : r.1.bdev = some .base) (ht : r.2 = none → ∃ e ∈ r.1.list, e.cname = ptablePartName) :
    Good d (resetOnError d r).1 := by
  unfold resetOnError
  split_ifs with he
  · exact good_reset h
  · exact ⟨subs, h, .inr ⟨hb, ht (by simpa using he)⟩⟩

theorem Good.createDefault (h : Good d s) (hd : d.name ≠ ptablePartName) (bdevName : CString)
    (offset : ℕ) : Good d (ptableCreateDefault d crc32 s bdevName offset).1 := by
  obtain ⟨subs, hok, -⟩ := h
  have h0 : Ok d ⟨s.disk, [.base], none, 0, []⟩ [] := ok_init s.disk
  rw [ptableCreateDefault, hok.reset]
  dsimp only
  cases ho : bioOpen d [.base] bdevName with
  | none => exact ⟨[], h0, .inl rfl⟩
  | some b =>
    obtain rfl : b = .base := by
      have := List.mem_of_find?_eq_some ho
      simpa using this
    have h1 : Ok d ⟨s.disk, [.base], some .base, 0, []⟩ [] :=
      ⟨rfl, h0.names, h0.published, h0.entries, h0.nodup, h0.ne_device, h0.gen_lt⟩
    dsimp only
    split
    · exact good_resetOnError h1 rfl fun he => by simp at he
    · rename_i len _
      have hname : (Entry.make offset len ptablePartName).cname = ptablePartName :=
        Entry.cname_make offset len (by decide)
      rcases h1.publish rfl (hname ▸ hd.symm) with ⟨err, hp⟩ | ⟨geo, -, hp₂, hp₁, h2⟩
      · rw [hp]
        exact good_resetOnError h1 rfl fun he => by simp at he
      · generalize ptablePublish d ⟨s.disk, [.base], some .base, 0, []⟩
          (Entry.make offset len ptablePartName) = r at *
        obtain ⟨t, err⟩ := r
        obtain rfl : err = none := hp₂
        dsimp only at hp₁ h2 ⊢
        obtain ⟨disk, gen, he, -⟩ := ptableWrite_frame (d := d) crc32 t
        refine good_resetOnError (h2.write crc32) (by rw [he, hp₁]) fun _ => ?_
        refine ⟨.make offset len ptablePartName, ?_, hname⟩
        rw [he, hp₁]
        exact (perm_pushEntry _ _).mem_iff.2 List.mem_cons_self

theorem Good.add (h : Good d s) (hn : name ≠ d.name) (minLen : ℕ)
    (allocEnd : Bool) : Good d (ptableAdd d crc32 s name minLen allocEnd).1 := by
  obtain ⟨subs, hok, hb⟩ := h
  unfold ptableAdd
  rcases hb with hb | ⟨hb, p, hp, hpn⟩
  · rw [hb]
    exact ⟨subs, hok, .inl hb⟩
  · have hsame : Good d s := ⟨subs, hok, .inr ⟨hb, p, hp, hpn⟩⟩
    rw [hb]
    dsimp only
    split
    · exact hsame
    split
    · exact hsame
    · rename_i hlen _ offset length _
      have hname : (Entry.make offset length name).cname = name :=
        Entry.cname_make offset length (by omega)
      rcases hok.publish hb (hname ▸ hn) with ⟨err, hpub⟩ | ⟨geo, -, hp₂, hp₁, h2⟩
      · rw [hpub]
        exact hsame
      · generalize ptablePublish d s (Entry.make offset length name) = r at *
        obtain ⟨t, err⟩ := r
        obtain rfl : err = none := hp₂
        dsimp only at hp₁ h2 ⊢
        obtain ⟨disk, gen, he, -⟩ := ptableWrite_frame (d := d) crc32 t
        refine ⟨_, h2.write crc32, .inr ⟨by rw [he, hp₁]; exact hb, p, ?_, hpn⟩⟩
        rw [he, hp₁]
        exact (perm_pushEntry _ _).mem_iff.2 (List.mem_cons_of_mem _ hp)

theorem map_cname_eraseP (l : List Entry) (name : CString) :
    (l.eraseP fun e => e.cname = name).map Entry.cname = (l.map Entry.cname).erase name := by
  rw [List.erase_eq_eraseP', List.eraseP_map]
  rfl

theorem map_name_eraseP (l : List Dev) (name : CString) :
    (l.eraseP fun x => x.name d = name).map (Dev.name d) = (l.map (Dev.name d)).erase name := by
  rw [List.erase_eq_eraseP', List.eraseP_map]
  rfl

/-- Unregistering a partition and dropping its entry. -/
theorem Ok.unpublish (h : Ok d s subs) (hn : name ≠ d.name) :
    Ok d { s with
      bdevs := bioUnregister d s.bdevs name
      list := s.list.eraseP fun e => e.cname = name } (subs.eraseP fun x => x.name d = name) := by
  have hmem : ∀ x ∈ s.list.eraseP (fun e => e.cname = name), x ∈ s.list :=
    fun x hx => List.mem_of_mem_eraseP hx
  refine ⟨?_, ?_, fun x hx => ?_, fun x hx => h.entries x (hmem x hx), ?_,
    fun x hx => h.ne_device x (hmem x hx), h.gen_lt⟩
  · simp [bioUnregister, h.bdevs, Dev.name, hn.symm]
  · rw [map_cname_eraseP, map_name_eraseP]
    exact h.names.erase name
  · obtain ⟨e, he, geo, rfl⟩ := h.published x (List.mem_of_mem_eraseP hx)
    refine ⟨e, (List.mem_eraseP_of_neg ?_).2 he, geo, rfl⟩
    have hnd : (subs.map (Dev.name d)).Nodup := h.names.nodup_iff.2 h.nodup
    have hxn := List.mem_map_of_mem (f := Dev.name d) hx
    rw [map_name_eraseP, hnd.mem_erase_iff] at hxn
    simpa using hxn.1
  · rw [map_cname_eraseP]
    exact h.nodup.erase name

theorem Good.remove (h : Good d s) (name : CString) : Good d (ptableRemove d crc32 s name).1 := by
  obtain ⟨subs, hok, hb⟩ := h
  unfold ptableRemove
  rcases hb with hb | ⟨hb, p, hp, hpn⟩
  · rw [hb]
    exact ⟨subs, hok, .inl hb⟩
  · rw [hb]
    dsimp only
    split_ifs with hpt hf
    · exact ⟨subs, hok, .inr ⟨hb, p, hp, hpn⟩⟩
    · obtain ⟨x, hx, hxn⟩ := (ptableFind_isSome_iff s name).1 hf
      have hok' := hok.unpublish (hxn ▸ hok.ne_device x hx)
      rw [hb] at hok'
      obtain ⟨disk, gen, he, -⟩ := ptableWrite_frame (d := d) crc32 { s with
        bdevs := bioUnregister d s.bdevs name
        list := s.list.eraseP fun e => e.cname = name
        bdev := some .base }
      refine ⟨_, hok'.write crc32, .inr ⟨by rw [he], p, ?_, hpn⟩⟩
      rw [he]
      exact (List.mem_eraseP_of_neg (by simpa [hpn] using fun h => hpt h.symm)).2 hp
    · exact ⟨subs, hok, .inr ⟨hb, p, hp, hpn⟩⟩

/-- A call that does not name a partition like the device. -/
def Act.Avoids (name : CString) : Act → Prop
  | .add n _ _ => n ≠ name
  | _ => True

theorem Good.step (h : Good d s) (hd : d.name ≠ ptablePartName) {a : Act} (ha : a.Avoids d.name)
    (hs : ptableStep d crc32 s a = some s') : Good d s' := by
  cases a with
  | createDefault bdevName offset => exact Option.some.inj hs ▸ h.createDefault hd bdevName offset
  | add name minLen allocEnd => exact Option.some.inj hs ▸ h.add ha minLen allocEnd
  | remove name => exact Option.some.inj hs ▸ h.remove name

/-! ### Writing -/

/-- `bio_open` finds the partition of an entry. -/
theorem Ok.bioOpen_subdev (h : Ok d s subs) (he : e ∈ s.list) :
    ∃ geo, bioOpen d s.bdevs e.cname = some (e.subdev d geo) := by
  have hmem : e.cname ∈ subs.map (Dev.name d) :=
    h.names.mem_iff.2 (List.mem_map_of_mem he)
  obtain ⟨x, hx, hxn⟩ := List.mem_map.1 hmem
  have hne : ¬ d.name = e.cname := (h.ne_device e he).symm
  have hfind : (bioOpen d s.bdevs e.cname).isSome := by
    rw [bioOpen, h.bdevs, List.find?_isSome]
    exact ⟨x, List.mem_cons_of_mem _ hx, by simpa using hxn⟩
  obtain ⟨y, hy⟩ := Option.isSome_iff_exists.1 hfind
  have hyn : y.name d = e.cname := by simpa using List.find?_some hy
  have hym := List.mem_of_find?_eq_some hy
  rw [h.bdevs] at hym
  rcases List.mem_cons.1 hym with rfl | hym
  · exact absurd hyn hne
  · obtain ⟨e', he', geo, rfl⟩ := h.published y hym
    obtain rfl : e' = e := List.inj_on_of_nodup_map h.nodup he' he hyn
    exact ⟨geo, hy⟩

/-- A successful `ptable_write` puts the table at the start of its partition. -/
theorem Ok.write_eq (h : Ok d s subs) (he : e ∈ s.list) (hpt : e.cname = ptablePartName)
    (hw : ptableWrite d crc32 s = (s', none)) :
    ptableLength s.list.length ≤ e.length ∧
      ∃ disk, s'.disk = store disk e.offset (tableImage crc32 s.gen s.list) := by
  obtain ⟨geo, ho⟩ := h.bioOpen_subdev he
  have hek := h.entries e he
  rw [hpt] at ho
  unfold ptableWrite at hw
  split at hw
  · simp at hw
  rw [ho] at hw
  dsimp only at hw
  rw [hek.totalSize_subdev] at hw
  rcases em (ptableLength s.list.length > e.length) with hbig | hbig
  · simp [hbig] at hw
  · have hfit : ptableLength s.list.length ≤ e.length := by omega
    rw [if_neg hbig] at hw
    have hwr : ∀ disk, bioWrite d (e.subdev d geo) disk 0 (tableImage crc32 s.gen s.list)
        = (store disk e.offset (tableImage crc32 s.gen s.list), ptableLength s.list.length) := by
      intro disk
      rw [bioWrite, length_tableImage, hek.extent_subdev geo hfit]
      dsimp only
      rw [List.take_of_length_le (length_tableImage crc32 s.gen s.list).le]
    simp only [hwr] at hw
    refine ⟨hfit, ?_⟩
    split_ifs at hw
    all_goals first
      | exact ⟨_, by rw [← (Prod.mk.inj hw).1]⟩
      | simp at hw

/-! ### Scanning -/

theorem tableCrc_lt (h : Header) (es : List Entry) : tableCrc crc32 h es < 256 ^ 4 := by
  unfold tableCrc
  generalize hc : u32 (crc32 0 { h with crc32 := 0 }.encode) = c
  have hlt : c < 256 ^ 4 := hc ▸ u32_lt _
  clear hc
  induction es generalizing c with
  | nil => exact hlt
  | cons e es ih => exact ih _ (u32_lt _)

/-- The loop of `ptable_scan` over entries that lie on the device as they were
written: each is published again. -/
theorem scanEntries_eq (crc32 : ℕ → List UInt8 → ℕ) {disk : ℕ → UInt8} {off : ℕ} (offset : ℕ)
    (es : List Entry) (k : List UInt8) (t : State) (subs : List Dev) (crc : ℕ) (found : Bool)
    (hdisk : t.disk = store disk off (k ++ es.flatMap Entry.encode))
    (hfit : off + k.length + 32 * es.length ≤ Dev.base.totalSize d)
    (hb : t.bdev = some .base) (hreg : t.bdevs = .base :: subs) (hok : ∀ e ∈ es, EntryOk d e)
    (hnd : (es.map Entry.cname).Nodup) (hfree : ∀ e ∈ es, ∀ x ∈ t.list, x.cname ≠ e.cname)
    (hoff : ∀ e ∈ es, e.cname = ptablePartName → e.offset = offset) :
    ∃ t', scanEntries d crc32 .base offset es.length (off + k.length) crc found t
        = (t', .ok (es.foldl (fun c e => u32 (crc32 c e.encode)) crc,
            found || es.any fun e => e.cname = ptablePartName)) ∧ t'.list.Perm (es ++ t.list) := by
  induction es generalizing k t subs crc found with
  | nil => exact ⟨t, by simp [scanEntries], .refl _⟩
  | cons e es ih =>
    have hread : bioRead d .base t.disk (off + k.length) 32 = e.encode := by
      rw [List.length_cons] at hfit
      rw [bioRead_base _ (by omega) (by decide), hdisk, List.flatMap_cons]
      simpa using window_store disk off k e.encode (es.flatMap Entry.encode)
    have hek := hok e List.mem_cons_self
    obtain ⟨geo, hpub⟩ := hek.publish hb hreg (hfree e List.mem_cons_self)
    have hperm := perm_pushEntry e t.list
    rw [List.map_cons, List.nodup_cons] at hnd
    have hstep : ∀ found, ∃ t', scanEntries d crc32 .base offset es.length
        (off + k.length + 32) (u32 (crc32 crc e.encode)) found { t with
          bdevs := .base :: (subs ++ [e.subdev d geo])
          list := pushEntry e t.list }
        = (t', .ok (es.foldl (fun c e => u32 (crc32 c e.encode)) (u32 (crc32 crc e.encode)),
          found || es.any fun e => e.cname = ptablePartName)) ∧
        t'.list.Perm (e :: es ++ t.list) := by
      intro found
      have := ih (k ++ e.encode) { t with
          bdevs := .base :: (subs ++ [e.subdev d geo])
          list := pushEntry e t.list } (subs ++ [e.subdev d geo]) (u32 (crc32 crc e.encode)) found
        (by simpa using hdisk) (by simp at hfit ⊢; omega) hb rfl
        (fun e' he' => hok e' (List.mem_cons_of_mem _ he')) hnd.2 ?_
        (fun e' he' => hoff e' (List.mem_cons_of_mem _ he'))
      · obtain ⟨t', h₁, h₂⟩ := this
        refine ⟨t', by simpa [Nat.add_assoc] using h₁, h₂.trans ?_⟩
        exact (hperm.append_left es).trans List.perm_middle
      · intro e' he' x hx
        rcases List.mem_cons.1 (hperm.mem_iff.1 hx) with rfl | hx
        · exact fun h => hnd.1 (h ▸ List.mem_map_of_mem he')
        · exact hfree e' (List.mem_cons_of_mem _ he') x hx
    rw [List.length_cons, scanEntries, hread, Entry.decode_encode, hpub]
    dsimp only
    by_cases hpt : e.cname = ptablePartName
    · have ho := hoff e List.mem_cons_self hpt
      rw [if_pos hpt, if_neg (by simpa using ho)]
      simpa [hpt] using hstep true
    · rw [if_neg hpt]
      simpa [hpt] using hstep found

theorem ptablePublish_length {t t' : State} (h : ptablePublish d t e = (t', none)) :
    t'.list.length = t.list.length + 1 := by
  unfold ptablePublish at h
  split at h
  · simp at h
  split at h
  · simp at h
  split at h
  · simp at h
  · rw [← (Prod.mk.inj h).1]
    simpa using (perm_pushEntry e t.list).length_eq

/-- A scan that does not bail out has published every entry it read. -/
theorem scanEntries_length {b : Dev} {offset n off crc : ℕ} {found : Bool} {t t' : State}
    {r : ℕ × Bool} (h : scanEntries d crc32 b offset n off crc found t = (t', .ok r)) :
    t'.list.length = t.list.length + n := by
  induction n generalizing off crc found t with
  | zero =>
    rw [scanEntries] at h
    rw [← (Prod.mk.inj h).1]
    rfl
  | succ n ih =>
    rw [scanEntries] at h
    split at h
    · simp at h
    · rename_i t₁ hp
      have hlen := ptablePublish_length hp
      split_ifs at h
      · simp at h
      · rw [ih h, hlen]
        omega
      · rw [ih h, hlen]
        omega

/-- The header `ptable_write` writes. -/
def tableHeader (crc32 : ℕ → List UInt8 → ℕ) (gen : ℕ) (es : List Entry) : Header :=
  let h : Header := ⟨ptableMagic, 0, gen, u32 (ptableLength es.length)⟩
  { h with crc32 := tableCrc crc32 h es }

theorem tableImage_eq (gen : ℕ) (es : List Entry) : tableImage crc32 gen es
    = (tableHeader crc32 gen es).encode ++ es.flatMap Entry.encode := rfl

/-- Scanning a table just written gets to its entries. -/
theorem Ok.scan_eq (h : Ok d s subs) (he : e ∈ s.list) (hpt : e.cname = ptablePartName)
    (hw : ptableWrite d crc32 s = (s', none)) :
    ptableScan d crc32 s' d.name e.offset = resetOnError d (scanTable d crc32 .base e.offset
      (tableHeader crc32 s.gen s.list) ⟨s'.disk, [.base], some .base, 0, []⟩) := by
  obtain ⟨hfit, disk, hdisk⟩ := h.write_eq he hpt hw
  have hek := h.entries e he
  have hlen : 16 ≤ ptableLength s.list.length := Nat.le_add_right _ _
  have hok' : Ok d s' subs := by simpa [hw] using h.write crc32
  have hopen : bioOpen d [.base] d.name = some .base := by simp [bioOpen, Dev.name]
  have hread : bioRead d .base s'.disk e.offset 16 = (tableHeader crc32 s.gen s.list).encode := by
    have := hek.fits
    rw [bioRead_base _ (by omega) (by decide), hdisk, tableImage_eq]
    simpa using window_store disk e.offset [] (tableHeader crc32 s.gen s.list).encode
      (s.list.flatMap Entry.encode)
  have hdec : Header.decode (tableHeader crc32 s.gen s.list).encode
      = tableHeader crc32 s.gen s.list :=
    Header.decode_encode (by simp [tableHeader, ptableMagic]) (tableCrc_lt _ _) h.gen_lt (u32_lt _)
  rw [ptableScan, hok'.reset]
  simp only [hopen, hread, Header.length_encode, Nat.lt_irrefl, if_false, hdec]

theorem resetOnError_of_none {r : State × Option Err} (h : r.2 = none) :
    resetOnError d r = r := by
  rw [resetOnError, h]
  rfl

theorem resetOnError_snd (r : State × Option Err) : (resetOnError d r).2 = r.2 := by
  unfold resetOnError
  split <;> rfl

/-- What a scan that succeeds has read. -/
theorem scanTable_success {b : Dev} {offset : ℕ} {hd : Header} {t : State}
    (h : (scanTable d crc32 b offset hd t).2 = none) :
    16 ≤ hd.totalLength ∧ hd.totalLength ≤ d.blockSize ∧
      (scanTable d crc32 b offset hd t).1.list.length = t.list.length + hd.numEntries := by
  unfold scanTable at h ⊢
  split_ifs at h ⊢ with h₁ h₂ h₃ h₄
  · refine ⟨by omega, by omega, ?_⟩
    split at h
    · simp at h
    · rename_i t' crc found hscan
      have hlen := scanEntries_length hscan
      split_ifs <;> exact hlen

/-- Rescanning a table just written finds it again exactly when it fits a block. -/
theorem Ok.scan_iff (h : Ok d s subs) (he : e ∈ s.list) (hpt : e.cname = ptablePartName)
    (hw : ptableWrite d crc32 s = (s', none)) :
    ((ptableScan d crc32 s' d.name e.offset).2 = none ∧
      (ptableScan d crc32 s' d.name e.offset).1.list.Perm s.list) ↔
      ptableLength s.list.length ≤ d.blockSize := by
  obtain ⟨hfit, disk, hdisk⟩ := h.write_eq he hpt hw
  have hbs : d.blockSize ≤ 2 ^ 31 :=
    Nat.pow_le_pow_right (by norm_num) (by have := d.blockShift_lt; omega)
  have hL : ptableLength s.list.length = 16 + 32 * s.list.length := rfl
  rw [h.scan_eq he hpt hw, resetOnError_snd]
  generalize hhd : tableHeader crc32 s.gen s.list = hd
  have htl : hd.totalLength = u32 (ptableLength s.list.length) := by rw [← hhd]; rfl
  constructor
  · -- a table that is too long is refused, or cut short where its length has wrapped
    rintro ⟨hnone, hperm⟩
    rw [resetOnError_of_none hnone] at hperm
    obtain ⟨h₁, h₂, h₃⟩ := scanTable_success hnone
    rw [hperm.length_eq, Header.numEntries, List.length_nil] at h₃
    unfold u32 at htl
    omega
  · intro hle
    rw [u32_of_lt (by omega)] at htl
    have hn : hd.numEntries = s.list.length := by
      rw [Header.numEntries, htl, hL]
      omega
    have hfits := (h.entries e he).fits
    obtain ⟨t', hscan, hperm⟩ := scanEntries_eq (d := d) crc32 e.offset s.list hd.encode
      ⟨s'.disk, [.base], some .base, 0, []⟩ [] (u32 (crc32 0 { hd with crc32 := 0 }.encode)) false
      (by rw [hdisk, tableImage_eq, hhd]) (by simp; omega) rfl rfl h.entries h.nodup (by simp)
      fun e' he' hn' => by
        rw [List.inj_on_of_nodup_map h.nodup he' he (hn'.trans hpt.symm)]
    have hany : (s.list.any fun e => e.cname = ptablePartName) = true :=
      List.any_eq_true.2 ⟨e, he, by simpa using hpt⟩
    have hcrc : hd.crc32 = s.list.foldl (fun c e => u32 (crc32 c e.encode))
        (u32 (crc32 0 { hd with crc32 := 0 }.encode)) := by
      rw [← hhd]
      rfl
    have hmagic : hd.magic = ptableMagic := by rw [← hhd]; rfl
    rw [Header.length_encode, hany] at hscan
    have hres : scanTable d crc32 .base e.offset hd ⟨s'.disk, [.base], some .base, 0, []⟩
        = (t', none) := by
      rw [scanTable, if_neg (by simpa using hmagic), if_neg (by omega), if_neg (by omega),
        if_neg (by omega), hn, hscan]
      simp [← hcrc]
    rw [hres, resetOnError_of_none rfl]
    exact ⟨rfl, by simpa using hperm⟩

/-- **Which tables survive a rescan.**  Take any run of `ptable_create_default`,
`ptable_add` and `ptable_remove` on a device, none of which names a partition like
the device, and a table in memory that `ptable_write` writes with success.  A scan
of the device where the table lies succeeds with exactly the entries of that table
if and only if the header and the entries fit one block of the device. -/
theorem ptable_persists_iff (d : Device) (crc32 : ℕ → List UInt8 → ℕ) (disk : ℕ → UInt8)
    (as : List Act) (s s' : State) (hd : d.name ≠ ptablePartName) (has : ∀ a ∈ as, a.Avoids d.name)
    (hrun : run (ptableStep d crc32) (.init disk) as = some s)
    (hw : ptableWrite d crc32 s = (s', none)) :
    ∃ e ∈ s.list, e.cname = ptablePartName ∧ ((ptableScan d crc32 s' d.name e.offset).2 = none ∧
          (ptableScan d crc32 s' d.name e.offset).1.list.Perm s.list ↔
        ptableLength s.list.length ≤ d.blockSize) := by
  have hgood : Good d s := by
    have hal : ∀ (as : List Act) (s : State), (∀ a ∈ as, a.Avoids d.name) →
        Along (ptableStep d crc32) (fun _ a => a.Avoids d.name) s as := by
      intro as
      induction as with
      | nil => exact fun _ _ => trivial
      | cons a as ih =>
        exact fun _ h => ⟨h a List.mem_cons_self,
          fun s' _ => ih s' fun b hb => h b (List.mem_cons_of_mem _ hb)⟩
    exact run_inv_along (fun _ _ _ hg ha hs => hg.step hd ha hs) as _ s
      ⟨[], ok_init disk, .inl rfl⟩ (hal as _ has) hrun
  obtain ⟨subs, hok, hb | ⟨-, e, he, hpt⟩⟩ := hgood
  · rw [ptableWrite, hb] at hw
    simp at hw
  · exact ⟨e, he, hpt, hok.scan_iff he hpt hw⟩

/-- A flash of 64 pages of 256 bytes. -/
def flash256 : Device :=
  ⟨⟨[102, 108, 97, 115, 104], by decide⟩, 8, 64, [], 0xff, by decide, by decide⟩

/-- One-letter names of partitions. -/
def letter (b : Fin 26) : CString where
  bytes := [UInt8.ofNat (97 + b)]
  nonul := by revert b; decide

/-- A new table and one partition on it. -/
theorem ptable_persists_two :
    ∃ s s', run (ptableStep flash256 fun _ _ => 0) (.init fun _ => 0)
        [.createDefault flash256.name 0, .add (letter 0) 256 false] = some s ∧
      ptableWrite flash256 (fun _ _ => 0) s = (s', none) ∧ ∃ e ∈ s.list, e.cname = ptablePartName ∧
        (ptableScan flash256 (fun _ _ => 0) s' flash256.name e.offset).2 = none ∧
        (ptableScan flash256 (fun _ _ => 0) s' flash256.name e.offset).1.list.Perm s.list := by
  refine ⟨_, _, rfl, rfl, ?_⟩
  obtain ⟨e, he, hpt, hiff⟩ := ptable_persists_iff flash256 (fun _ _ => 0) (fun _ => 0)
    [.createDefault flash256.name 0, .add (letter 0) 256 false] _ _ (by decide)
    (by simpa [Act.Avoids] using by decide) rfl rfl
  exact ⟨e, he, hpt, hiff.2 (by decide)⟩

/-- **A table lost.**  The eighth entry brings the table to 272 bytes, which fit its
partition of three pages but not one page: the write succeeds and the scan refuses
what it wrote. -/
theorem ptable_lost_eight :
    ∃ s, run (ptableStep flash256 fun _ _ => 0) (.init fun _ => 0)
        (.createDefault flash256.name 0 ::
          [0, 1, 2, 3, 4, 5, 6].map fun i => .add (letter i) 256 false) = some s ∧
      s.list.length = 8 ∧ (ptableWrite flash256 (fun _ _ => 0) s).2 = none ∧
      (ptableScan flash256 (fun _ _ => 0) (ptableWrite flash256 (fun _ _ => 0) s).1
        flash256.name 0).2 = some .notFound := by
  refine ⟨_, rfl, ?_, ?_, ?_⟩ <;> decide +kernel

end Ptable
end LittleKernel
