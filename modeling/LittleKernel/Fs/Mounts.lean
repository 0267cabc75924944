/-
# The lifetime of a mount

`lib/fs/fs.c`: `find_mount`, `put_mount`, `mount`, `fs_unmount`, `fs_open_file`,
`fs_create_file`, `fs_remove_file`, `fs_open_dir`, `fs_close_file` and `fs_close_dir`.

A `struct fs_mount` is named by a number, since a freed one may not be told from a later
one by its address.  What the filesystem, the block layer and `find_fs` answer is part of
the call.  `temppath`, the path after `strlcpy` and `fs_normalize_path`, is given by a
function `normalize` of which nothing is assumed.  A call that touches a mount already
released is undefined.

`released` is the log of `put_mount`, and `unmounted` has the mounts that an `fs_unmount`
has returned success for.  The reference of the mount itself is counted in `ref` until
then (`Mounts.Inv`); a second `fs_unmount` takes a reference that belongs to a handle.
-/

import Mathlib.Data.List.Nodup
import Mathlib.Data.List.Count
import Mathlib.Data.List.Infix
import LittleKernel.Lib.Machine

namespace LittleKernel
namespace Fs

/-- `struct fs_mount`. -/
structure Mount where
  id : ℕ
  path : List Char
  ref : ℤ
  deriving DecidableEq

/-- What a handle is for. -/
inductive Kind
  | file
  | dir
  deriving DecidableEq

/-- `struct filehandle` and `struct dirhandle`: the mount it refers to. -/
structure Handle where
  id : ℕ
  kind : Kind
  mount : ℕ
  deriving DecidableEq

/-- The list `mounts`, newest first, the handles that are open, and the logs. -/
structure State where
  mounts : List Mount
  handles : List Handle
  released : List ℕ
  unmounted : List ℕ
  fresh : ℕ
  deriving DecidableEq

section Model

/-- A reference added to, or taken from, the mount `i`. -/
def State.addRef (i : ℕ) (k : ℤ) (s : State) : State :=
  { s with mounts := s.mounts.map fun m => if m.id = i then { m with ref := m.ref + k } else m }

/-- `find_mount` up to the reference it adds. -/
def State.lookup (path : List Char) (s : State) : Option Mount :=
  s.mounts.find? fun m => m.path.isPrefixOf path

/-- `put_mount`. -/
def putMount (i : ℕ) (s : State) : Option State :=
  match s.mounts.find? (·.id = i) with
  | none => none
  | some m =>
    if m.ref - 1 = 0 then
      some { s with
        mounts := s.mounts.filter (·.id ≠ i)
        released := s.released ++ [i] }
    else some (s.addRef i (-1))

/-- `mount`, behind `find_fs`: `dev` says whether `bio_open` succeeds, `err` whether
`api->mount` fails. -/
def mount (temppath : List Char) (dev err : Bool) (s : State) : Option State :=
  if temppath.head? ≠ some '/' then some s
  else
    match s.lookup temppath with
    | some m => putMount m.id (s.addRef m.id 1)
    | none =>
      if !dev ∨ err then some s
      else some { s with
        mounts := ⟨s.fresh, temppath, 1⟩ :: s.mounts
        fresh := s.fresh + 1 }

/-- `fs_unmount`. -/
def fsUnmount (temppath : List Char) (s : State) : Option State :=
  match s.lookup temppath with
  | none => some s
  | some m => do
      let s ← putMount m.id (s.addRef m.id 1)
      let s ← putMount m.id s
      some { s with unmounted := m.id :: s.unmounted }

/-- The common part of the functions that open: `supported` says whether the filesystem
has the call, `err` whether it fails. -/
def openHandle (kind : Kind) (temppath : List Char) (supported err : Bool) (s : State) :
    Option State :=
  match s.lookup temppath with
  | none => some s
  | some m =>
    let s := s.addRef m.id 1
    if !supported ∨ err then putMount m.id s
    else some { s with
      handles := ⟨s.fresh, kind, m.id⟩ :: s.handles
      fresh := s.fresh + 1 }

/-- `fs_open_file`, which does not ask whether the call is there. -/
def fsOpenFile (temppath : List Char) (err : Bool) (s : State) : Option State :=
  openHandle .file temppath true err s

/-- `fs_create_file`. -/
def fsCreateFile (temppath : List Char) (supported err : Bool) (s : State) : Option State :=
  openHandle .file temppath supported err s

/-- `fs_open_dir`. -/
def fsOpenDir (temppath : List Char) (supported err : Bool) (s : State) : Option State :=
  openHandle .dir temppath supported err s

/-- `fs_remove_file`; what the filesystem says makes no difference here. -/
def fsRemoveFile (temppath : List Char) (s : State) : Option State :=
  match s.lookup temppath with
  | none => some s
  | some m => putMount m.id (s.addRef m.id 1)

/-- The common part of the functions that close an open handle of their kind. -/
def closeHandle (kind : Kind) (handle : ℕ) (supported err : Bool) (s : State) : Option State :=
  match s.handles.find? fun h => h.id = handle ∧ h.kind = kind with
  | none => none
  | some h =>
    if s.mounts.all (·.id ≠ h.mount) then none
    else if !supported ∨ err then some s
    else
      putMount h.mount { s with handles := s.handles.erase h }

/-- `fs_close_file`. -/
def fsCloseFile (handle : ℕ) (err : Bool) (s : State) : Option State :=
  closeHandle .file handle true err s

/-- `fs_close_dir`. -/
def fsCloseDir (handle : ℕ) (supported err : Bool) (s : State) : Option State :=
  closeHandle .dir handle supported err s

/-- The calls, with what the layers below answer. -/
inductive Op
  | mount (path : List Char) (fs dev err : Bool)
  | unmount (path : List Char)
  | openFile (path : List Char) (err : Bool)
  | createFile (path : List Char) (supported err : Bool)
  | openDir (path : List Char) (supported err : Bool)
  | closeFile (handle : ℕ) (err : Bool)
  | closeDir (handle : ℕ) (supported err : Bool)
  | removeFile (path : List Char)
  deriving DecidableEq

variable (normalize : List Char → List Char)

def step (s : State) : Op → Option State
  | .mount path fs dev err => if fs then Fs.mount (normalize path) dev err s else some s
  | .unmount path => fsUnmount (normalize path) s
  | .openFile path err => fsOpenFile (normalize path) err s
  | .createFile path supported err => fsCreateFile (normalize path) supported err s
  | .openDir path supported err => fsOpenDir (normalize path) supported err s
  | .closeFile handle err => fsCloseFile handle err s
  | .closeDir handle supported err => fsCloseDir handle supported err s
  | .removeFile path => fsRemoveFile (normalize path) s

/-- Before the first mount. -/
def initial : State := ⟨[], [], [], [], 0⟩

end Model

section Spec

/-- The open handles on the mount `i`. -/
def State.handlesOn (i : ℕ) (s : State) : ℕ := s.handles.countP (·.mount = i)

/-- **What a mount is owed.**  No open handle refers to a released mount, a mount that has
not been unmounted counts its handles and itself, and no mount is released twice. -/
structure Lifetime (s : State) : Prop where
  handle : ∀ h ∈ s.handles, h.mount ∉ s.released
  ref : ∀ m ∈ s.mounts, m.id ∉ s.unmounted → m.ref = s.handlesOn m.id + 1
  released : s.released.Nodup

/-- `fs_unmount` finds no mount that was unmounted before and stays for its handles alone. -/
def Meets (normalize : List Char → List Char) (s : State) : Op → Prop
  | .unmount path => ∀ m ∈ s.lookup (normalize path), (s.handlesOn m.id : ℤ) < m.ref
  | _ => True

end Spec

section Invariant

/-- The invariant, for a state in which the mount `i` has `extra i` references more than
it should. -/
structure InvAt (extra : ℕ → ℤ) (s : State) : Prop where
  ids : (s.mounts.map Mount.id).Nodup
  ref : ∀ m ∈ s.mounts,
    m.ref = s.handlesOn m.id + (if m.id ∈ s.unmounted then 0 else 1) + extra m.id
  pos : ∀ m ∈ s.mounts, 1 ≤ m.ref
  handle : ∀ h ∈ s.handles, h.mount ∈ s.mounts.map Mount.id
  fresh : (∀ m ∈ s.mounts, m.id < s.fresh) ∧ (∀ i ∈ s.released, i < s.fresh) ∧
    ∀ i ∈ s.unmounted, i < s.fresh
  apart : ∀ m ∈ s.mounts, m.id ∉ s.released
  released : s.released.Nodup

/-- **The invariant.** -/
def Inv (s : State) : Prop := InvAt (fun _ => 0) s

variable {s s' : State} {m : Mount} {i : ℕ} {extra : ℕ → ℤ}

theorem Inv.lifetime (h : Inv s) : Lifetime s where
  handle k hk := by
    obtain ⟨m, hm, he⟩ := List.mem_map.1 (h.handle k hk)
    exact he ▸ h.apart m hm
  ref m hm hu := by
    have := h.ref m hm
    simpa [hu] using this
  released := h.released

theorem find?_id (h : (s.mounts.map Mount.id).Nodup) (hm : m ∈ s.mounts) :
    s.mounts.find? (·.id = m.id) = some m := by
  cases hf : s.mounts.find? (·.id = m.id) with
  | none =>
    have := List.find?_eq_none.1 hf m hm
    simp at this
  | some m' =>
    have hid : m'.id = m.id := by simpa using List.find?_some hf
    rw [List.inj_on_of_nodup_map h (List.mem_of_find?_eq_some hf) hm hid]

/-- `put_mount` on a mount of the list. -/
theorem putMount_of_mem (h : (s.mounts.map Mount.id).Nodup) (hm : m ∈ s.mounts) :
    putMount m.id s =
      if m.ref - 1 = 0 then
        some { s with
          mounts := s.mounts.filter (·.id ≠ m.id)
          released := s.released ++ [m.id] }
      else some (s.addRef m.id (-1)) := by
  simp only [putMount, find?_id h hm]

theorem mem_addRef {k : ℤ} {m' : Mount} (h : m' ∈ (s.addRef i k).mounts) :
    ∃ m ∈ s.mounts, m'.id = m.id ∧ m'.ref = m.ref + if m.id = i then k else 0 := by
  obtain ⟨m, hm, rfl⟩ := List.mem_map.1 h
  refine ⟨m, hm, ?_⟩
  split_ifs with hi
  · exact ⟨rfl, rfl⟩
  · exact ⟨rfl, (Int.add_zero _).symm⟩

@[simp] theorem ids_addRef (i : ℕ) (k : ℤ) (s : State) :
    (s.addRef i k).mounts.map Mount.id = s.mounts.map Mount.id := by
  simp only [State.addRef, List.map_map]
  refine List.map_congr_left fun m _ => ?_
  simp only [Function.comp]
  split_ifs <;> rfl

@[simp] theorem addRef_zero (i : ℕ) (s : State) : s.addRef i 0 = s := by
  have : (s.mounts.map fun m => if m.id = i then { m with ref := m.ref + 0 } else m) = s.mounts := by
    refine (List.map_congr_left fun m _ => ?_).trans (List.map_id _)
    split_ifs <;> simp
  simp only [State.addRef, this]

theorem addRef_addRef (i : ℕ) (j k : ℤ) (s : State) :
    (s.addRef i j).addRef i k = s.addRef i (j + k) := by
  have : ∀ m : Mount, (fun m : Mount => if m.id = i then { m with ref := m.ref + k } else m)
      (if m.id = i then { m with ref := m.ref + j } else m) =
      if m.id = i then { m with ref := m.ref + (j + k) } else m := by
    intro m
    by_cases hm : m.id = i <;> simp [hm, Int.add_assoc]
  simp only [State.addRef, List.map_map, Function.comp_def, this]

/-- A reference that `find_mount` adds and `put_mount` takes leaves nothing behind. -/
theorem putMount_addRef (h : Inv s) (hm : m ∈ s.mounts) :
    putMount m.id (s.addRef m.id 1) = some s := by
  have hm' : { m with ref := m.ref + 1 } ∈ (s.addRef m.id 1).mounts :=
    List.mem_map.2 ⟨m, hm, by simp⟩
  have hpos := h.pos m hm
  have hne : m.ref + 1 - 1 ≠ 0 := by omega
  have := putMount_of_mem (by rw [ids_addRef]; exact h.ids) hm'
  simp only [if_neg hne] at this
  rw [this, addRef_addRef]
  simp

/-- **A reference too many is given back**, and the mount is released when it was the
last one. -/
theorem InvAt.drop (h : InvAt (fun j => if j = i then 1 else 0) s)
    (hi : i ∈ s.mounts.map Mount.id) :
    ∃ s', putMount i s = some s' ∧ Inv s' := by
  obtain ⟨m, hm, rfl⟩ := List.mem_map.1 hi
  rw [putMount_of_mem h.ids hm]
  have href := h.ref m hm
  simp only [if_true] at href
  split_ifs with hlast
  · -- no handle is left on the mount
    have hnone : s.handlesOn m.id = 0 := by
      split_ifs at href <;> omega
    refine ⟨_, rfl, ?_, ?_, ?_, ?_, ?_, ?_, ?_⟩
    · exact h.ids.sublist (List.filter_sublist.map _)
    · intro m' hm'
      obtain ⟨hm', hne⟩ := List.mem_filter.1 hm'
      have hne : m'.id ≠ m.id := by simpa using hne
      have := h.ref m' hm'
      simp only [if_neg hne] at this
      exact this
    · exact fun m' hm' => h.pos m' (List.mem_filter.1 hm').1
    · intro k hk
      obtain ⟨m', hm', he⟩ := List.mem_map.1 (h.handle k hk)
      have hk' : k.mount ≠ m.id := by
        intro e
        have := List.countP_eq_zero.1 hnone k hk
        simp [e] at this
      exact List.mem_map.2 ⟨m', List.mem_filter.2 ⟨hm', by simpa [he] using hk'⟩, he⟩
    · refine ⟨fun m' hm' => h.fresh.1 m' (List.mem_filter.1 hm').1, fun j hj => ?_, h.fresh.2.2⟩
      rcases List.mem_append.1 hj with hj | hj
      · exact h.fresh.2.1 j hj
      · rw [List.mem_singleton.1 hj]
        exact h.fresh.1 m hm
    · intro m' hm'
      obtain ⟨hm', hne⟩ := List.mem_filter.1 hm'
      have hne : m'.id ≠ m.id := by simpa using hne
      simpa [hne] using h.apart m' hm'
    · exact List.nodup_append.2 ⟨h.released, List.nodup_singleton _, fun a ha b hb =>
        fun e => h.apart m hm (by rwa [← List.mem_singleton.1 hb, ← e])⟩
  · refine ⟨_, rfl, ?_, ?_, ?_, ?_, ?_, ?_, ?_⟩
    · rw [ids_addRef]
      exact h.ids
    · intro m' hm'
      obtain ⟨m₀, hm₀, hid, hr⟩ := mem_addRef hm'
      have := h.ref m₀ hm₀
      rw [hid, hr, this]
      change _ = (s.handlesOn m₀.id : ℤ) + (if m₀.id ∈ s.unmounted then 0 else 1) + 0
      split_ifs <;> omega
    · intro m' hm'
      obtain ⟨m₀, hm₀, hid, hr⟩ := mem_addRef hm'
      have hp := h.pos m₀ hm₀
      rw [hr]
      split_ifs with he
      · obtain rfl := List.inj_on_of_nodup_map h.ids hm₀ hm he
        omega
      · omega
    · intro k hk
      rw [ids_addRef]
      exact h.handle k hk
    · refine ⟨fun m' hm' => ?_, h.fresh.2⟩
      obtain ⟨m₀, hm₀, hid, -⟩ := mem_addRef hm'
      exact hid ▸ h.fresh.1 m₀ hm₀
    · intro m' hm'
      obtain ⟨m₀, hm₀, hid, -⟩ := mem_addRef hm'
      exact hid ▸ h.apart m₀ hm₀
    · exact h.released

variable {path : List Char}

theorem mem_of_lookup (hm : s.lookup path = some m) : m ∈ s.mounts :=
  List.mem_of_find?_eq_some hm

/-- A fresh mount has no handle. -/
theorem Inv.handlesOn_fresh (h : Inv s) : s.handlesOn s.fresh = 0 := by
  refine List.countP_eq_zero.2 fun k hk => ?_
  obtain ⟨m, hm, he⟩ := List.mem_map.1 (h.handle k hk)
  have := h.fresh.1 m hm
  simp only [decide_eq_true_eq]
  omega

theorem Inv.mount {dev err : Bool} (h : Inv s)
    (hs : Fs.mount path dev err s = some s') : Inv s' := by
  unfold Fs.mount at hs
  by_cases hroot : path.head? ≠ some '/'
  · rw [if_pos hroot] at hs
    exact Option.some.inj hs ▸ h
  rw [if_neg hroot] at hs
  cases hl : s.lookup path with
  | some m =>
    simp only [hl, putMount_addRef h (mem_of_lookup hl), Option.some.injEq] at hs
    exact hs ▸ h
  | none =>
    simp only [hl] at hs
    split_ifs at hs
    · cases hs
      exact h
    cases hs
    have hnone := h.handlesOn_fresh
    have hnew : ∀ m ∈ s.mounts, m.id ≠ s.fresh := fun m hm => (h.fresh.1 m hm).ne
    refine ⟨?_, ?_, ?_, ?_, ⟨?_, ?_, ?_⟩, ?_, h.released⟩
    · refine List.nodup_cons.2 ⟨fun hm => ?_, h.ids⟩
      obtain ⟨m, hm, he⟩ := List.mem_map.1 hm
      exact hnew m hm he
    · rintro m (_ | ⟨_, hm⟩)
      · have hu : s.fresh ∉ s.unmounted := fun hu => (h.fresh.2.2 _ hu).false
        change (1 : ℤ) = s.handlesOn s.fresh + (if s.fresh ∈ s.unmounted then 0 else 1) + 0
        simp [hnone, hu]
      · exact h.ref m hm
    · rintro m (_ | ⟨_, hm⟩)
      · exact Int.le_refl 1
      · exact h.pos m hm
    · exact fun k hk => List.mem_cons_of_mem _ (h.handle k hk)
    · rintro m (_ | ⟨_, hm⟩)
      · exact Nat.lt_succ_self _
      · exact Nat.lt_succ_of_lt (h.fresh.1 m hm)
    · exact fun i hi => Nat.lt_succ_of_lt (h.fresh.2.1 i hi)
    · exact fun i hi => Nat.lt_succ_of_lt (h.fresh.2.2 i hi)
    · rintro m (_ | ⟨_, hm⟩)
      · exact fun hr => (h.fresh.2.1 _ hr).false
      · exact h.apart m hm

theorem countP_cons_mount (k : Handle) (ks : List Handle) (i : ℕ) :
    ((k :: ks).countP (·.mount = i) : ℤ) =
      ks.countP (·.mount = i) + if i = k.mount then 1 else 0 := by
  rw [List.countP_cons]
  by_cases hk : i = k.mount
  · simp [hk]
  · simp [hk, Ne.symm hk]

theorem Inv.openHandle {kind : Kind} {supported err : Bool} (h : Inv s)
    (hs : Fs.openHandle kind path supported err s = some s') : Inv s' := by
  unfold Fs.openHandle at hs
  cases hl : s.lookup path with
  | none =>
    simp only [hl, Option.some.injEq] at hs
    exact hs ▸ h
  | some m =>
    have hm := mem_of_lookup hl
    simp only [hl, putMount_addRef h hm] at hs
    split_ifs at hs
    · cases hs
      exact h
    cases hs
    refine ⟨?_, ?_, ?_, ?_, ⟨?_, ?_, ?_⟩, ?_, h.released⟩
    · exact (ids_addRef m.id 1 s).symm ▸ h.ids
    · intro m' hm'
      obtain ⟨m₀, hm₀, hid, hr⟩ := mem_addRef hm'
      have := h.ref m₀ hm₀
      rw [hid, hr, this]
      change _ = (((⟨s.fresh, kind, m.id⟩ :: s.handles).countP (·.mount = m₀.id) : ℕ) : ℤ) +
        (if m₀.id ∈ s.unmounted then 0 else 1) + 0
      rw [countP_cons_mount, State.handlesOn]
      split_ifs <;> omega
    · intro m' hm'
      obtain ⟨m₀, hm₀, -, hr⟩ := mem_addRef hm'
      have hp := h.pos m₀ hm₀
      rw [hr]
      split_ifs <;> omega
    · rintro k (_ | ⟨_, hk⟩)
      · exact (ids_addRef m.id 1 s).symm ▸ List.mem_map_of_mem hm
      · exact (ids_addRef m.id 1 s).symm ▸ h.handle k hk
    · intro m' hm'
      obtain ⟨m₀, hm₀, hid, -⟩ := mem_addRef hm'
      exact hid ▸ Nat.lt_succ_of_lt (h.fresh.1 m₀ hm₀)
    · exact fun i hi => Nat.lt_succ_of_lt (h.fresh.2.1 i hi)
    · exact fun i hi => Nat.lt_succ_of_lt (h.fresh.2.2 i hi)
    · intro m' hm'
      obtain ⟨m₀, hm₀, hid, -⟩ := mem_addRef hm'
      exact hid ▸ h.apart m₀ hm₀

theorem Inv.fsRemoveFile (h : Inv s) (hs : Fs.fsRemoveFile path s = some s') : Inv s' := by
  unfold Fs.fsRemoveFile at hs
  cases hl : s.lookup path with
  | none =>
    simp only [hl, Option.some.injEq] at hs
    exact hs ▸ h
  | some m =>
    simp only [hl, putMount_addRef h (mem_of_lookup hl), Option.some.injEq] at hs
    exact hs ▸ h

/-- Closing a handle leaves its reference over, which `put_mount` takes. -/
theorem Inv.closeHandle {kind : Kind} {handle : ℕ} {supported err : Bool} (h : Inv s)
    (hs : Fs.closeHandle kind handle supported err s = some s') : Inv s' := by
  unfold Fs.closeHandle at hs
  split at hs
  · cases hs
  · rename_i k hk
    have hk : k ∈ s.handles := List.mem_of_find?_eq_some hk
    split_ifs at hs
    · cases hs
      exact h
    have herase : ∀ i, (s.handles.countP (·.mount = i) : ℤ) =
        (s.handles.erase k).countP (·.mount = i) + if i = k.mount then 1 else 0 := by
      intro i
      have := List.Perm.countP_eq (·.mount = i) (List.perm_cons_erase hk)
      rw [this, countP_cons_mount]
    have hextra : InvAt (fun i => if i = k.mount then 1 else 0)
        { s with handles := s.handles.erase k } := by
      refine ⟨h.ids, fun m hm => ?_, h.pos, fun j hj => h.handle j (List.mem_of_mem_erase hj),
        h.fresh, h.apart, h.released⟩
      have := h.ref m hm
      simp only [State.handlesOn, herase] at this ⊢
      rw [this]
      omega
    obtain ⟨s'', hput, hinv⟩ := hextra.drop (h.handle k hk)
    rw [hput] at hs
    exact Option.some.inj hs ▸ hinv

/-- `put_mount` neither reads nor writes the log of `fs_unmount`. -/
theorem putMount_unmounted
    (h : putMount i { s with unmounted := i :: s.unmounted } = some s') :
    (putMount i s).bind (fun s => some { s with unmounted := i :: s.unmounted }) = some s' := by
  unfold putMount at h ⊢
  cases hf : s.mounts.find? (·.id = i) with
  | none =>
    simp only [hf] at h
    cases h
  | some m =>
    simp only [hf] at h ⊢
    split_ifs at h ⊢ <;> exact h

/-- The reference that the first `fs_unmount` takes is the mount's own. -/
theorem Inv.fsUnmount (h : Inv s) (hmeets : ∀ m ∈ s.lookup path, (s.handlesOn m.id : ℤ) < m.ref)
    (hs : Fs.fsUnmount path s = some s') : Inv s' := by
  unfold Fs.fsUnmount at hs
  cases hl : s.lookup path with
  | none =>
    simp only [hl, Option.some.injEq] at hs
    exact hs ▸ h
  | some m =>
    have hm := mem_of_lookup hl
    have hlt := hmeets m hl
    have href := h.ref m hm
    have hu : m.id ∉ s.unmounted := by
      intro hu
      simp only [if_pos hu] at href
      omega
    have hextra : InvAt (fun i => if i = m.id then 1 else 0)
        { s with unmounted := m.id :: s.unmounted } := by
      refine ⟨h.ids, fun m' hm' => ?_, h.pos, h.handle, ⟨h.fresh.1, h.fresh.2.1, ?_⟩,
        h.apart, h.released⟩
      · have := h.ref m' hm'
        change m'.ref = (s.handlesOn m'.id : ℤ) +
          (if m'.id ∈ m.id :: s.unmounted then 0 else 1) + if m'.id = m.id then 1 else 0
        rw [this]
        by_cases he : m'.id = m.id
        · simp [he, hu]
        · simp [he]
      · rintro i (_ | ⟨_, hi⟩)
        · exact h.fresh.1 m hm
        · exact h.fresh.2.2 i hi
    obtain ⟨s'', hput, hinv⟩ := hextra.drop (List.mem_map_of_mem hm)
    simp only [hl, putMount_addRef h hm, Option.bind_eq_bind, Option.bind_some] at hs
    rw [putMount_unmounted hput] at hs
    exact Option.some.inj hs ▸ hinv

variable {normalize : List Char → List Char}

theorem inv_step {a : Op} (h : Inv s) (hok : Meets normalize s a)
    (hs : step normalize s a = some s') : Inv s' := by
  cases a with
  | mount path fs dev err =>
    simp only [step] at hs
    split_ifs at hs
    · exact h.mount hs
    · exact Option.some.inj hs ▸ h
  | unmount path => exact h.fsUnmount hok hs
  | openFile path err => exact h.openHandle hs
  | createFile path supported err => exact h.openHandle hs
  | openDir path supported err => exact h.openHandle hs
  | closeFile handle err => exact h.closeHandle hs
  | closeDir handle supported err => exact h.closeHandle hs
  | removeFile path => exact h.fsRemoveFile hs

theorem inv_initial : Inv initial := by
  constructor <;> simp [initial]

end Invariant

section Lifetime

instance (normalize : List Char → List Char) (s : State) :
    ∀ a, Decidable (Meets normalize s a)
  | .unmount path => by unfold Meets; infer_instance
  | .mount .. | .openFile .. | .createFile .. | .openDir .. | .closeFile .. | .closeDir ..
  | .removeFile .. => .isTrue trivial

/-- **Mount lifetime.**  As long as no `fs_unmount` finds a mount that only its handles
keep, every state of every run has what a mount is owed. -/
theorem mount_lifetime (normalize : List Char → List Char) (ops : List Op)
    (hok : Machine.Along (step normalize) (Meets normalize) initial ops) :
    Machine.Throughout (step normalize) Lifetime initial ops :=
  (hok.throughout (fun _ _ _ hs hok h => inv_step hs hok h) inv_initial).imp
    fun _ hs => hs.lifetime

/-- A mount is unmounted while a file is open on it, and goes with the file. -/
theorem mount_lifetime_close :
    Machine.Throughout (step id) Lifetime initial
      [.mount "/a".toList true true false, .openFile "/a/f".toList false, .unmount "/a".toList,
        .closeFile 1 false] :=
  mount_lifetime id _ (by decide)

/-- **The second `fs_unmount` takes the reference of an open file.**  The mount is
released under the handle. -/
theorem unmount_twice :
    ¬Machine.Throughout (step id) Lifetime initial
      [.mount "/a".toList true true false, .openFile "/a/f".toList false, .unmount "/a".toList,
        .unmount "/a".toList] := by
  intro h
  obtain ⟨-, h⟩ := h
  have h := (((h _ rfl).2 _ rfl).2 _ rfl).2 _ rfl
  exact absurd (h.handle ⟨1, .file, 0⟩ (by decide)) (by decide)

end Lifetime

end Fs
end LittleKernel
