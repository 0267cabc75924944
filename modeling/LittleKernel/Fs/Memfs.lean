/-
# Files in memory: `lib/fs/memfs/memfs.c`

A file is a name and a buffer of the heap; the files are kept in a list in the
order they were created, and an open directory is a cursor into that list.

The model is compared with a map from names to byte strings (`Abs`, `Spec`): a
file cookie stands for a name, a read returns a slice, a write replaces one and
fills a gap before it with zeros, and an open directory hands out every file
that stays, once.  `memfs_refines` is the comparison for whole runs.

The code departs from the map in four places.  `memfs_write` grows a file with
`realloc` and does not clear what lies between the old end and `off`
(`hole_not_zero`); `off + len` may wrap, and `realloc` takes it modulo the width
of `size_t`; `memfs_remove` does not look at the cursors that point at the file;
and `memfs_readdir` cuts a name at `FS_MAX_FILE_LEN`, as `memfs_create` does not
look at the result of `strdup`.  `Call.Meets` keeps the calls clear of these.

The lock is held over each call, so a call is a step.  What the heap answers is
part of the call; an access outside of a buffer or through a pointer that is no
longer valid is `none`.
-/

import LittleKernel.Lib.Keyed
import LittleKernel.Lib.Machine
import Mathlib.Algebra.Order.Group.Int
import Mathlib.Logic.Function.Basic
import Mathlib.Tactic.NormNum
import Mathlib.Tactic.SplitIfs

namespace LittleKernel
namespace Memfs

open Function

/-! ### The code -/

/-- `memfs_file_t`, known by its address; `ptr` is the data area, `len` its length, and
`name` is `none` where `strdup` failed. -/
structure File where
  id : ℕ
  name : Option (List Char)
  ptr : List UInt8

/-- `dircookie`. -/
structure Dir where
  id : ℕ
  nextFile : Option ℕ

/-- `memfs_t`; what is allocated next gets the address `fresh`. -/
structure Fs where
  files : List File
  dcookies : List Dir
  fresh : ℕ

inductive Error
  | noMemory
  | notSupported
  | alreadyExists
  | notFound
  | invalidArgs
  deriving DecidableEq

/-- What a call returns. -/
inductive Answer
  | err (e : Error)
  | done
  | file (id : ℕ)
  | dir (id : ℕ)
  | bytes (l : List UInt8)
  | count (n : ℕ)
  | name (n : List Char)
  deriving DecidableEq

/-- `trim_name`. -/
def trimName (name : List Char) : List Char :=
  (name.dropWhile (· = ' ')).dropWhile (· = '/')

/-- `FS_MAX_FILE_LEN`. -/
def fsMaxFileLen : ℕ := 64

/-- `find_file`; `strcmp` of a file without a name is undefined. -/
def findFile (name : List Char) : List File → Option (Option File)
  | [] => some none
  | f :: fs =>
    match f.name with
    | none => none
    | some n => if n = name then some (some f) else findFile name fs

/-- `memfs_create`; `fileOk`, `dataOk` and `nameOk` say whether `malloc`, `calloc` and
`strdup` find memory. -/
def memfsCreate (w : ℕ) (mem : Fs) (name : List Char) (len : ℕ) (fileOk dataOk nameOk : Bool) :
    Option (Fs × Answer) :=
  if 2 ^ w - 1 ≤ len then some (mem, .err .noMemory)
  else
    let name := trimName name
    if '/' ∈ name then some (mem, .err .notSupported)
    else
      (findFile name mem.files).bind fun
        | some _ => some (mem, .err .alreadyExists)
        | none =>
          if fileOk = false then some (mem, .err .noMemory)
          else if dataOk = false then some (mem, .err .noMemory)
          else
            let file : File :=
              ⟨mem.fresh, if nameOk then some name else none, List.replicate len 0⟩
            some ({ mem with files := mem.files ++ [file], fresh := mem.fresh + 1 },
              .file mem.fresh)

/-- `memfs_open`. -/
def memfsOpen (mem : Fs) (name : List Char) : Option (Fs × Answer) :=
  (findFile (trimName name) mem.files).map fun
    | some file => (mem, .file file.id)
    | none => (mem, .err .notFound)

/-- `memfs_remove`. -/
def memfsRemove (mem : Fs) (name : List Char) : Option (Fs × Answer) :=
  (findFile (trimName name) mem.files).map fun
    | some file => ({ mem with files := mem.files.filter fun f => f.id ≠ file.id }, .done)
    | none => (mem, .err .notFound)

/-- The file a cookie points to. -/
def Fs.fileAt (mem : Fs) (id : ℕ) : Option File := mem.files.find? fun f => f.id = id

/-- `off + len`, of an `off_t` and a `size_t`: unsigned where both have 64 bits, else
signed, and undefined where that overflows. -/
def addOff (w off len : ℕ) : Option ℕ :=
  if w = 64 then some ((off + len) % 2 ^ 64)
  else if off + len < 2 ^ 63 then some (off + len)
  else none

/-- `memfs_read`. -/
def memfsRead (w : ℕ) (mem : Fs) (id : ℕ) (off : ℤ) (len : ℕ) : Option (Fs × Answer) :=
  (mem.fileAt id).bind fun file =>
    if off < 0 then some (mem, .err .invalidArgs)
    else
      let off := off.toNat
      if file.ptr.length ≤ off then some (mem, .bytes [])
      else
        (addOff w off len).bind fun sum =>
          let len := if file.ptr.length < sum then file.ptr.length - off else len
          if off + len ≤ file.ptr.length then some (mem, .bytes ((file.ptr.drop off).take len))
          else none

/-- The data area of a file after an assignment to `ptr`. -/
def Fs.setPtr (mem : Fs) (id : ℕ) (ptr : List UInt8) : Fs :=
  { mem with files := mem.files.map fun f => if f.id = id then { f with ptr := ptr } else f }

/-- `memfs_truncate`; `ok` says whether `realloc` finds memory. -/
def memfsTruncate (mem : Fs) (id len : ℕ) (ok : Bool) : Option (Fs × Answer) :=
  (mem.fileAt id).map fun file =>
    if file.ptr.length < len then (mem, .err .invalidArgs)
    else if ok = false then (mem, .err .noMemory)
    else (mem.setPtr id (file.ptr.take len), .done)

/-- `realloc` of a buffer that grows or shrinks to `size`; `heap i` is what the memory
it adds holds at `i`. -/
def realloc (ptr : List UInt8) (size : ℕ) (heap : ℕ → UInt8) : List UInt8 :=
  (List.range size).map fun i => ptr.getD i (heap i)

/-- `memcpy` of all of `buf` to `off`. -/
def putAt (ptr : List UInt8) (off : ℕ) (buf : List UInt8) : List UInt8 :=
  ptr.take off ++ buf ++ ptr.drop (off + buf.length)

/-- `memfs_write`; `ok` says whether `realloc` finds memory. -/
def memfsWrite (w : ℕ) (mem : Fs) (id : ℕ) (buf : List UInt8) (off : ℤ) (ok : Bool)
    (heap : ℕ → UInt8) : Option (Fs × Answer) :=
  (mem.fileAt id).bind fun file =>
    if off < 0 then some (mem, .err .invalidArgs)
    else
      (addOff w off.toNat buf.length).bind fun sum =>
        if file.ptr.length < sum ∧ ok = false then some (mem, .err .noMemory)
        else
          let ptr := if file.ptr.length < sum then realloc file.ptr (sum % 2 ^ w) heap else file.ptr
          -- the address is computed in `w` bits
          let at' := off.toNat % 2 ^ w
          if at' + buf.length ≤ ptr.length then
            some (mem.setPtr id (putAt ptr at' buf), .count buf.length)
          else none

/-- `memfs_opendir`. -/
def memfsOpendir (mem : Fs) (name : List Char) (ok : Bool) : Fs × Answer :=
  if trimName name ≠ [] then (mem, .err .notFound)
  else if ok = false then (mem, .err .noMemory)
  else
    let dir : Dir := ⟨mem.fresh, (mem.files.map File.id).head?⟩
    ({ mem with dcookies := dir :: mem.dcookies, fresh := mem.fresh + 1 }, .dir mem.fresh)

/-- The directory a cookie points to. -/
def Fs.dirAt (mem : Fs) (id : ℕ) : Option Dir := mem.dcookies.find? fun d => d.id = id

/-- `list_next` from the node `id`. -/
def listNext (ids : List ℕ) (id : ℕ) : Option ℕ := (ids.dropWhile fun i => i ≠ id).tail.head?

/-- `memfs_readdir`. -/
def memfsReaddir (mem : Fs) (id : ℕ) : Option (Fs × Answer) :=
  (mem.dirAt id).bind fun dir =>
    match dir.nextFile with
    | none => some (mem, .err .notFound)
    | some next =>
      (mem.fileAt next).bind fun file =>
        file.name.map fun n =>
          let after := listNext (mem.files.map File.id) next
          ({ mem with dcookies :=
              mem.dcookies.map fun d => if d.id = id then { d with nextFile := after } else d },
            .name (n.take (fsMaxFileLen - 1)))

/-- `memfs_closedir`. -/
def memfsClosedir (mem : Fs) (id : ℕ) : Option (Fs × Answer) :=
  (mem.dirAt id).map fun _ =>
    ({ mem with dcookies := mem.dcookies.filter fun d => d.id ≠ id }, .done)

/-! ### Runs -/

/-- A call of one of the functions. -/
inductive Call
  | create (name : List Char) (len : ℕ) (fileOk dataOk nameOk : Bool)
  | open (name : List Char)
  | remove (name : List Char)
  | read (file : ℕ) (off : ℤ) (len : ℕ)
  | truncate (file len : ℕ) (ok : Bool)
  | write (file : ℕ) (buf : List UInt8) (off : ℤ) (ok : Bool) (heap : ℕ → UInt8)
  | opendir (name : List Char) (ok : Bool)
  | readdir (dir : ℕ)
  | closedir (dir : ℕ)

/-- What a call does and returns. -/
def Fs.call (w : ℕ) (mem : Fs) : Call → Option (Fs × Answer)
  | .create name len fileOk dataOk nameOk => memfsCreate w mem name len fileOk dataOk nameOk
  | .open name => memfsOpen mem name
  | .remove name => memfsRemove mem name
  | .read file off len => memfsRead w mem file off len
  | .truncate file len ok => memfsTruncate mem file len ok
  | .write file buf off ok heap => memfsWrite w mem file buf off ok heap
  | .opendir name ok => some (memfsOpendir mem name ok)
  | .readdir dir => memfsReaddir mem dir
  | .closedir dir => memfsClosedir mem dir

/-- What became of an open directory: the files that were there when it was opened and
have not been removed since, and those it returned. -/
structure Listing where
  present : List ℕ
  returned : List ℕ

/-- A file system with a record of its open directories. -/
structure Run where
  mem : Fs
  listing : ℕ → Option Listing

/-- The record after a call. -/
def Run.record (r : Run) (call : Call) (answer : Answer) : ℕ → Option Listing :=
  match call, answer with
  | .opendir _ _, .dir id => update r.listing id (some ⟨r.mem.files.map File.id, []⟩)
  | .remove name, .done => fun d => (r.listing d).map fun l => { l with
      present := l.present.filter fun i =>
        (r.mem.fileAt i).bind File.name ≠ some (trimName name) }
  | .readdir d, .name _ => update r.listing d
      ((r.listing d).map fun l => { l with
        returned := l.returned ++ ((r.mem.dirAt d).bind Dir.nextFile).toList })
  | .closedir d, .done => update r.listing d none
  | _, _ => r.listing

/-- One step. -/
def Run.step (w : ℕ) (r : Run) (call : Call) : Option (Run × Answer) :=
  (r.mem.call w call).map fun q => (⟨q.1, r.record call q.2⟩, q.2)

/-- `memfs_mount`. -/
def Run.mount : Run := ⟨⟨[], [], 0⟩, fun _ => none⟩

/-! ### Files as a map from names to byte strings -/

/-- The map, what the file cookies stand for, and the open directories. -/
@[ext] structure Abs where
  store : List Char → Option (List UInt8)
  handle : ℕ → Option (List Char)
  listing : ℕ → Option Listing

/-- A byte string after a write: zeros fill the gap up to `off`. -/
def written (c : List UInt8) (off : ℕ) (buf : List UInt8) : List UInt8 :=
  (c ++ List.replicate (off - c.length) 0).take off ++ buf ++ c.drop (off + buf.length)

/-- A call that fails and changes nothing. -/
def Abs.Fails (m m' : Abs) (answer : Answer) (e : Error) : Prop := answer = .err e ∧ m' = m

/-- What the calls mean on the map. -/
def Spec (w : ℕ) (m : Abs) : Call → Answer → Abs → Prop
  | .create name len fileOk dataOk _, a, m' =>
    if 2 ^ w - 1 ≤ len then m.Fails m' a .noMemory
    else if '/' ∈ trimName name then m.Fails m' a .notSupported
    else if (m.store (trimName name)).isSome then m.Fails m' a .alreadyExists
    else if (fileOk && dataOk) = false then m.Fails m' a .noMemory
    else ∃ id, m.handle id = none ∧ a = .file id ∧ m' = { m with
      store := update m.store (trimName name) (some (List.replicate len 0))
      handle := update m.handle id (some (trimName name)) }
  | .open name, a, m' =>
    if (m.store (trimName name)).isSome then
      ∃ id, m.handle id = some (trimName name) ∧ a = .file id ∧ m' = m
    else m.Fails m' a .notFound
  | .remove name, a, m' =>
    if (m.store (trimName name)).isSome then
      a = .done ∧ m' = {
        store := update m.store (trimName name) none
        handle := fun i => (m.handle i).filter fun n => n ≠ trimName name
        listing := fun d => (m.listing d).map fun l => { l with
          present := l.present.filter fun i => m.handle i ≠ some (trimName name) } }
    else m.Fails m' a .notFound
  | .read id off len, a, m' => ∃ n c, m.handle id = some n ∧ m.store n = some c ∧
      if off < 0 then m.Fails m' a .invalidArgs
      else a = .bytes ((c.drop off.toNat).take len) ∧ m' = m
  | .truncate id len ok, a, m' => ∃ n c, m.handle id = some n ∧ m.store n = some c ∧
      if c.length < len then m.Fails m' a .invalidArgs
      else if ok = false then m.Fails m' a .noMemory
      else a = .done ∧ m' = { m with store := update m.store n (some (c.take len)) }
  | .write id buf off ok _, a, m' => ∃ n c, m.handle id = some n ∧ m.store n = some c ∧
      if off < 0 then m.Fails m' a .invalidArgs
      else if c.length < off.toNat + buf.length ∧ ok = false then m.Fails m' a .noMemory
      else a = .count buf.length ∧ m' = { m with
        store := update m.store n (some (written c off.toNat buf)) }
  | .opendir name ok, a, m' =>
    if trimName name ≠ [] then m.Fails m' a .notFound
    else if ok = false then m.Fails m' a .noMemory
    else ∃ d present, m.listing d = none ∧ (∀ i, i ∈ present ↔ (m.handle i).isSome) ∧
      a = .dir d ∧ m' = { m with listing := update m.listing d (some ⟨present, []⟩) }
  | .readdir d, a, m' => ∃ l, m.listing d = some l ∧
      ((∃ i n, m.handle i = some n ∧ i ∉ l.returned ∧ a = .name n ∧ m' = { m with
          listing := update m.listing d (some { l with returned := l.returned ++ [i] }) }) ∨
        m.Fails m' a .notFound ∧ ∀ i ∈ l.present, i ∈ l.returned)
  | .closedir d, a, m' => a = .done ∧ m' = { m with listing := update m.listing d none }

/-- The map a file system stands for. -/
def Run.abs (r : Run) : Abs where
  store n := (r.mem.files.find? fun f => f.name = some n).map File.ptr
  handle i := (r.mem.fileAt i).bind File.name
  listing := r.listing

/-- The condition under which a call does what it means.  The first three are on the
cookies: they stand for a file or directory that is there. -/
def Call.Meets (w : ℕ) (mem : Fs) : Call → Prop
  | .create name _ _ _ nameOk => nameOk = true ∧ (trimName name).length < fsMaxFileLen
  | .read id off len => (mem.fileAt id).isSome ∧ ∀ file ∈ mem.fileAt id, 0 ≤ off →
      off.toNat < file.ptr.length → addOff w off.toNat len = some (off.toNat + len)
  | .truncate id _ _ => (mem.fileAt id).isSome
  | .write id buf off ok _ => (mem.fileAt id).isSome ∧ ∀ file ∈ mem.fileAt id, 0 ≤ off →
      off.toNat + buf.length < 2 ^ w ∧ (ok = true → off.toNat ≤ file.ptr.length)
  | .remove name => ∀ d ∈ mem.dcookies, ∀ i ∈ d.nextFile,
      (mem.fileAt i).bind File.name ≠ some (trimName name)
  | .readdir d => (mem.dirAt d).isSome
  | .closedir d => (mem.dirAt d).isSome
  | .open _ => True
  | .opendir _ _ => True

/-! ### The invariant -/

/-- A cursor: what is left to return starts at `next`, and what was there when the
directory was opened and has not been removed is left or was returned. -/
def Cursor (ids : List ℕ) (next : Option ℕ) (l : Listing) : Prop :=
  ∃ before rest, ids = before ++ rest ∧ next = rest.head? ∧
    (∀ i ∈ l.present, i ∈ l.returned ∨ i ∈ rest) ∧ ∀ i ∈ l.returned, i ∉ rest

structure Inv (r : Run) : Prop where
  ids : (r.mem.files.map File.id).Nodup
  lt : ∀ f ∈ r.mem.files, f.id < r.mem.fresh
  named : ∀ f ∈ r.mem.files, ∃ n, f.name = some n ∧ n.length < fsMaxFileLen
  names : (r.mem.files.map File.name).Nodup
  dirIds : (r.mem.dcookies.map Dir.id).Nodup
  dirLt : ∀ d ∈ r.mem.dcookies, d.id < r.mem.fresh
  listed : ∀ i, (r.listing i).isSome → ∃ d ∈ r.mem.dcookies, d.id = i
  cursor : ∀ d ∈ r.mem.dcookies, ∃ l, r.listing d.id = some l ∧
    Cursor (r.mem.files.map File.id) d.nextFile l ∧ ∀ i ∈ l.returned, i < r.mem.fresh

variable {r : Run} {w : ℕ}

theorem Inv.fileAt_iff (h : Inv r) {i : ℕ} {f : File} :
    r.mem.fileAt i = some f ↔ f ∈ r.mem.files ∧ f.id = i := Keyed.find_iff h.ids

variable {n : List Char} {c : List UInt8}

theorem Inv.store_iff (h : Inv r) :
    r.abs.store n = some c ↔ ∃ f ∈ r.mem.files, f.name = some n ∧ f.ptr = c := by
  simp only [Run.abs, Option.map_eq_some_iff, Keyed.find_iff h.names, and_assoc]

theorem Inv.handle_iff (h : Inv r) {i : ℕ} :
    r.abs.handle i = some n ↔ ∃ f ∈ r.mem.files, f.id = i ∧ f.name = some n := by
  simp only [Run.abs, Option.bind_eq_some_iff, h.fileAt_iff, and_assoc]

theorem Inv.store_isSome_iff (n : List Char) :
    (r.abs.store n).isSome ↔ ∃ f ∈ r.mem.files, f.name = some n := by
  rw [Run.abs, Option.isSome_map, Keyed.find_isSome_iff]

/-- Two files with one name are one file. -/
theorem Inv.eq_of_name (h : Inv r) {f g : File} (hf : f ∈ r.mem.files) (hg : g ∈ r.mem.files)
    (he : f.name = g.name) : f = g := Keyed.eq_of_key h.names hf hg he

theorem Inv.eq_of_id (h : Inv r) {f g : File} (hf : f ∈ r.mem.files) (hg : g ∈ r.mem.files)
    (he : f.id = g.id) : f = g := Keyed.eq_of_key h.ids hf hg he

/-- `find_file` searches the names. -/
theorem findFile_eq {files : List File} (h : ∀ f ∈ files, ∃ n, f.name = some n ∧
    n.length < fsMaxFileLen) (name : List Char) :
    findFile name files = some (files.find? fun f => f.name = some name) := by
  induction files with
  | nil => rfl
  | cons f files ih =>
    obtain ⟨⟨n, hn, -⟩, h⟩ := List.forall_mem_cons.1 h
    rw [findFile, hn]
    by_cases hname : n = name
    · simp [hname, hn]
    · simp [hname, hn, ih h]

theorem Inv.findFile (h : Inv r) (name : List Char) :
    (∃ f ∈ r.mem.files, f.name = some name ∧ findFile name r.mem.files = some (some f) ∧
        (r.abs.store name).isSome) ∨
      findFile name r.mem.files = some none ∧ ¬ (r.abs.store name).isSome ∧
        ∀ f ∈ r.mem.files, f.name ≠ some name := by
  rw [findFile_eq h.named, Inv.store_isSome_iff]
  cases hf : r.mem.files.find? fun f => f.name = some name with
  | none =>
    have hno := Keyed.find_eq_none_iff.1 hf
    exact .inr ⟨rfl, fun ⟨f, hm, hn⟩ => hno f hm hn, hno⟩
  | some f =>
    obtain ⟨hm, hn⟩ := Keyed.of_find hf
    exact .inl ⟨f, hm, hn, rfl, f, hm, hn⟩

/-! ### The content of a file -/

/-- The data area of one file is replaced. -/
theorem Inv.setPtr (h : Inv r) {f : File} (hf : f ∈ r.mem.files)
    (hn : f.name = some n) (ptr : List UInt8) :
    Inv ⟨r.mem.setPtr f.id ptr, r.listing⟩ ∧ Run.abs ⟨r.mem.setPtr f.id ptr, r.listing⟩ =
        { r.abs with store := update r.abs.store n (some ptr) } := by
  have hids : (r.mem.setPtr f.id ptr).files.map File.id = r.mem.files.map File.id :=
    Keyed.map_key fun g _ => by split_ifs <;> rfl
  have hnames : (r.mem.setPtr f.id ptr).files.map File.name = r.mem.files.map File.name :=
    Keyed.map_key fun g _ => by split_ifs <;> rfl
  have hmem {g : File} : g ∈ (r.mem.setPtr f.id ptr).files ↔
      ∃ g' ∈ r.mem.files, (if g'.id = f.id then { g' with ptr := ptr } else g') = g := by
    rw [Fs.setPtr, List.mem_map]
  have hinv : Inv ⟨r.mem.setPtr f.id ptr, r.listing⟩ := by
    refine ⟨by rw [hids]; exact h.ids, ?_, ?_, by rw [hnames]; exact h.names, h.dirIds, h.dirLt,
      h.listed, ?_⟩
    · intro g hg
      obtain ⟨g', hg', rfl⟩ := hmem.1 hg
      split_ifs <;> exact h.lt g' hg'
    · intro g hg
      obtain ⟨g', hg', rfl⟩ := hmem.1 hg
      split_ifs <;> exact h.named g' hg'
    · intro d hd
      rw [hids]
      exact h.cursor d hd
  refine ⟨hinv, ?_⟩
  have hstore : (Run.abs ⟨r.mem.setPtr f.id ptr, r.listing⟩).store =
      update r.abs.store n (some ptr) := by
    funext m
    refine Option.ext fun c => ?_
    rw [hinv.store_iff]
    by_cases hm : m = n
    · subst hm
      rw [update_self, Option.some_inj]
      constructor
      · rintro ⟨g, hg, hgn, rfl⟩
        obtain ⟨g', hg', rfl⟩ := hmem.1 hg
        have hgn' : g'.name = some m := by split_ifs at hgn <;> exact hgn
        obtain rfl := h.eq_of_name hg' hf (hgn'.trans hn.symm)
        rw [if_pos rfl]
      · rintro rfl
        exact ⟨_, hmem.2 ⟨f, hf, if_pos rfl⟩, hn, rfl⟩
    · rw [update_of_ne hm, h.store_iff]
      constructor
      · rintro ⟨g, hg, hgn, rfl⟩
        obtain ⟨g', hg', rfl⟩ := hmem.1 hg
        split_ifs at hgn ⊢ with hid
        · obtain rfl := h.eq_of_id hg' hf hid
          exact absurd (Option.some.inj (hgn.symm.trans hn)) hm
        · exact ⟨g', hg', hgn, rfl⟩
      · rintro ⟨g, hg, hgn, rfl⟩
        refine ⟨g, hmem.2 ⟨g, hg, if_neg fun hid => ?_⟩, hgn, rfl⟩
        obtain rfl := h.eq_of_id hg hf hid
        exact absurd (Option.some.inj (hgn.symm.trans hn)) hm
  have hhandle : (Run.abs ⟨r.mem.setPtr f.id ptr, r.listing⟩).handle = r.abs.handle := by
    funext i
    refine Option.ext fun m => ?_
    rw [hinv.handle_iff, h.handle_iff]
    constructor
    · rintro ⟨g, hg, hid, hgn⟩
      obtain ⟨g', hg', rfl⟩ := hmem.1 hg
      split_ifs at hid hgn <;> exact ⟨g', hg', hid, hgn⟩
    · rintro ⟨g, hg, hid, hgn⟩
      refine ⟨_, hmem.2 ⟨g, hg, rfl⟩, ?_⟩
      split_ifs <;> exact ⟨hid, hgn⟩
  exact Abs.ext hstore hhandle rfl

/-- `memcpy` into a buffer that reaches `off` and the end of the bytes written. -/
theorem written_of_le {off : ℕ} (h : off ≤ c.length) (buf : List UInt8) :
    written c off buf = c.take off ++ buf ++ c.drop (off + buf.length) := by
  rw [written, Nat.sub_eq_zero_of_le h, List.replicate_zero, List.append_nil]

/-- A buffer that `realloc` has grown without a hole before the bytes written. -/
theorem putAt_realloc {off : ℕ} (h : off ≤ c.length) (buf : List UInt8)
    (hgrow : c.length < off + buf.length) (heap : ℕ → UInt8) :
    putAt (realloc c (off + buf.length) heap) off buf = written c off buf := by
  have hlen : (realloc c (off + buf.length) heap).length = off + buf.length := by simp [realloc]
  rw [written_of_le h, putAt, List.drop_eq_nil_of_le hlen.le, List.drop_eq_nil_of_le hgrow.le]
  congr 2
  refine List.ext_getElem (by simp [realloc]; omega) fun i hi hi' => ?_
  have hi : i < off := by simp at hi'; omega
  simp [realloc, List.getD_eq_getElem?_getD, List.getElem?_eq_getElem (show i < c.length by omega)]

/-! ### Files that come and go -/

/-- A file with a new name at the end of the list is a new entry of the store with a handle of its
own. -/
theorem Inv.append (h : Inv r) (hlen : n.length < fsMaxFileLen)
    (hnew : ∀ f ∈ r.mem.files, f.name ≠ some n) (ptr : List UInt8) :
    let r' : Run := ⟨{ r.mem with
      files := r.mem.files ++ [⟨r.mem.fresh, some n, ptr⟩], fresh := r.mem.fresh + 1 }, r.listing⟩
    Inv r' ∧ r.abs.handle r.mem.fresh = none ∧ r'.abs = { r.abs with
      store := update r.abs.store n (some ptr)
      handle := update r.abs.handle r.mem.fresh (some n) } := by
  intro r'
  have hmem {g : File} : g ∈ r'.mem.files ↔ g ∈ r.mem.files ∨ g = ⟨r.mem.fresh, some n, ptr⟩ := by
    simp [r']
  have hids : r'.mem.files.map File.id = r.mem.files.map File.id ++ [r.mem.fresh] := by
    simp [r']
  have hinv : Inv r' := by
    refine ⟨Keyed.nodup_concat h.ids fun g hg => (h.lt g hg).ne, ?_, ?_,
      Keyed.nodup_concat h.names hnew, h.dirIds, fun d hd => (h.dirLt d hd).trans (Nat.lt_succ_self _),
      h.listed, ?_⟩
    · intro g hg
      rcases hmem.1 hg with hg | rfl
      · exact (h.lt g hg).trans (Nat.lt_succ_self _)
      · exact Nat.lt_succ_self _
    · intro g hg
      rcases hmem.1 hg with hg | rfl
      · exact h.named g hg
      · exact ⟨n, rfl, hlen⟩
    · intro d hd
      obtain ⟨l, hl, ⟨before, rest, hsplit, hnext, hpresent, hreturned⟩, hlt⟩ := h.cursor d hd
      refine ⟨l, hl, ?_, fun i hi => (hlt i hi).trans (Nat.lt_succ_self _)⟩
      rw [hids]
      -- a cursor at the end stays there, another one reaches the new file
      cases rest with
      | nil =>
        exact ⟨before ++ [r.mem.fresh], [], by rw [hsplit, List.append_nil, List.append_nil],
          hnext, hpresent, hreturned⟩
      | cons k rest =>
        refine ⟨before, k :: rest ++ [r.mem.fresh], by rw [hsplit, List.append_assoc], hnext,
          fun i hi => ?_, fun i hi hmem => ?_⟩
        · exact (hpresent i hi).imp id fun hi => List.mem_append_left _ hi
        · rcases List.mem_append.1 hmem with hmem | hmem
          · exact hreturned i hi hmem
          · exact (hlt i hi).ne (List.mem_singleton.1 hmem)
  have hhandle : r.abs.handle r.mem.fresh = none := by
    refine Option.eq_none_iff_forall_ne_some.2 fun m hm => ?_
    obtain ⟨g, hg, hid, -⟩ := h.handle_iff.1 hm
    exact (h.lt g hg).ne hid
  refine ⟨hinv, hhandle, Abs.ext ?_ ?_ rfl⟩
  · funext m
    refine Option.ext fun c => ?_
    rw [hinv.store_iff]
    by_cases hm : m = n
    · subst hm
      simp only [update_self, Option.some_inj, hmem]
      constructor
      · rintro ⟨g, hg | rfl, hgn, rfl⟩
        · exact absurd hgn (hnew g hg)
        · rfl
      · rintro rfl
        exact ⟨_, .inr rfl, rfl, rfl⟩
    · simp only [update_of_ne hm, h.store_iff, hmem]
      constructor
      · rintro ⟨g, hg | rfl, hgn, rfl⟩
        · exact ⟨g, hg, hgn, rfl⟩
        · exact absurd (Option.some.inj hgn).symm hm
      · rintro ⟨g, hg, hgn, rfl⟩
        exact ⟨g, .inl hg, hgn, rfl⟩
  · funext i
    refine Option.ext fun m => ?_
    rw [hinv.handle_iff]
    by_cases hi : i = r.mem.fresh
    · subst hi
      simp only [update_self, Option.some_inj, hmem]
      constructor
      · rintro ⟨g, hg | rfl, hid, hgn⟩
        · exact absurd hid (h.lt g hg).ne
        · exact Option.some.inj hgn
      · rintro rfl
        exact ⟨_, .inr rfl, rfl, rfl⟩
    · simp only [update_of_ne hi, h.handle_iff, hmem]
      constructor
      · rintro ⟨g, hg | rfl, hid, hgn⟩
        · exact ⟨g, hg, hid, hgn⟩
        · exact absurd hid.symm hi
      · rintro ⟨g, hg, hid, hgn⟩
        exact ⟨g, .inl hg, hid, hgn⟩

/-- A file that no cursor points at is removed. -/
theorem Inv.removeFile (h : Inv r) {f : File} (hf : f ∈ r.mem.files)
    (hn : f.name = some n) (hcursor : ∀ d ∈ r.mem.dcookies, d.nextFile ≠ some f.id) :
    let r' : Run := ⟨{ r.mem with files := r.mem.files.filter fun g => g.id ≠ f.id },
      fun d => (r.listing d).map fun l => { l with
        present := l.present.filter fun i => r.abs.handle i ≠ some n }⟩
    Inv r' ∧ r'.abs = {
      store := update r.abs.store n none
      handle := fun i => (r.abs.handle i).filter fun m => m ≠ n
      listing := r'.listing } := by
  intro r'
  have hmem {g : File} : g ∈ r'.mem.files ↔ g ∈ r.mem.files ∧ g.id ≠ f.id := by simp [r']
  have hids : r'.mem.files.map File.id = (r.mem.files.map File.id).filter fun i => i ≠ f.id := by
    rw [List.filter_map]
    rfl
  have hself : r.abs.handle f.id = some n := h.handle_iff.2 ⟨f, hf, rfl, hn⟩
  have hinv : Inv r' := by
    refine ⟨Keyed.nodup_filter h.ids _, fun g hg => h.lt g (hmem.1 hg).1,
      fun g hg => h.named g (hmem.1 hg).1, Keyed.nodup_filter h.names _, h.dirIds, h.dirLt, ?_, ?_⟩
    · intro i hi
      exact h.listed i (by simpa [r'] using hi)
    · intro d hd
      obtain ⟨l, hl, ⟨before, rest, hsplit, hnext, hpresent, hreturned⟩, hlt⟩ := h.cursor d hd
      refine ⟨{ l with present := l.present.filter fun i => r.abs.handle i ≠ some n },
        by simp [r', hl], ⟨before.filter fun i => i ≠ f.id, rest.filter fun i => i ≠ f.id,
        ?_, ?_, ?_, ?_⟩, hlt⟩
      · rw [hids, hsplit, List.filter_append]
      · cases rest with
        | nil => exact hnext
        | cons k rest =>
          have hk : k ≠ f.id := fun hk => hcursor d hd (by rw [hnext, List.head?_cons, hk])
          rw [hnext, List.filter_cons_of_pos (by simpa using hk)]
          rfl
      · intro i hi
        obtain ⟨hi, hother⟩ := List.mem_filter.1 hi
        refine (hpresent i hi).imp id fun hi => List.mem_filter.2 ⟨hi, ?_⟩
        have hne : i ≠ f.id := by
          rintro rfl
          simp [hself] at hother
        simpa using hne
      · exact fun i hi hr => hreturned i hi (List.mem_filter.1 hr).1
  refine ⟨hinv, Abs.ext ?_ ?_ rfl⟩
  · funext m
    refine Option.ext fun c => ?_
    rw [hinv.store_iff]
    by_cases hm : m = n
    · subst hm
      simp only [update_self, hmem, reduceCtorEq, iff_false]
      rintro ⟨g, ⟨hg, hid⟩, hgn, -⟩
      exact hid (by rw [h.eq_of_name hg hf (hgn.trans hn.symm)])
    · simp only [update_of_ne hm, h.store_iff, hmem]
      constructor
      · rintro ⟨g, ⟨hg, -⟩, hgn, rfl⟩
        exact ⟨g, hg, hgn, rfl⟩
      · rintro ⟨g, hg, hgn, rfl⟩
        refine ⟨g, ⟨hg, fun hid => ?_⟩, hgn, rfl⟩
        obtain rfl := h.eq_of_id hg hf hid
        exact hm (Option.some.inj (hgn.symm.trans hn))
  · funext i
    refine Option.ext fun m => ?_
    simp only [hinv.handle_iff, Option.filter_eq_some_iff, h.handle_iff, hmem, decide_eq_true_eq]
    constructor
    · rintro ⟨g, ⟨hg, hne⟩, hid, hgn⟩
      refine ⟨⟨g, hg, hid, hgn⟩, ?_⟩
      rintro rfl
      exact hne (by rw [h.eq_of_name hg hf (hgn.trans hn.symm)])
    · rintro ⟨⟨g, hg, hid, hgn⟩, hne⟩
      refine ⟨g, ⟨hg, fun he => ?_⟩, hid, hgn⟩
      obtain rfl := h.eq_of_id hg hf he
      exact hne (Option.some.inj (hgn.symm.trans hn))

/-! ### Open directories -/

theorem Inv.dirAt_iff (h : Inv r) {i : ℕ} {d : Dir} :
    r.mem.dirAt i = some d ↔ d ∈ r.mem.dcookies ∧ d.id = i := Keyed.find_iff h.dirIds

theorem Inv.opendir (h : Inv r) :
    let r' : Run := ⟨{ r.mem with
        dcookies := ⟨r.mem.fresh, (r.mem.files.map File.id).head?⟩ :: r.mem.dcookies
        fresh := r.mem.fresh + 1 },
      update r.listing r.mem.fresh (some ⟨r.mem.files.map File.id, []⟩)⟩
    Inv r' ∧ r.listing r.mem.fresh = none := by
  intro r'
  have hnone : r.listing r.mem.fresh = none := by
    by_contra hl
    obtain ⟨d, hd, hid⟩ := h.listed r.mem.fresh (Option.isSome_iff_ne_none.2 hl)
    exact (h.dirLt d hd).ne hid
  refine ⟨⟨h.ids, fun f hf => (h.lt f hf).trans (Nat.lt_succ_self _), h.named, h.names, ?_, ?_, ?_,
    ?_⟩, hnone⟩
  · refine List.nodup_cons.2 ⟨fun hmem => ?_, h.dirIds⟩
    obtain ⟨d, hd, hid⟩ := List.mem_map.1 hmem
    exact (h.dirLt d hd).ne hid
  · exact List.forall_mem_cons.2 ⟨Nat.lt_succ_self _,
      fun d hd => (h.dirLt d hd).trans (Nat.lt_succ_self _)⟩
  · intro i hi
    by_cases hid : i = r.mem.fresh
    · exact ⟨_, List.mem_cons_self, hid.symm⟩
    · obtain ⟨d, hd, hdi⟩ := h.listed i (by simpa [r', update_of_ne hid] using hi)
      exact ⟨d, List.mem_cons_of_mem _ hd, hdi⟩
  · refine List.forall_mem_cons.2 ⟨⟨⟨r.mem.files.map File.id, []⟩, update_self .., ?_,
      by simp⟩, fun d hd => ?_⟩
    · exact ⟨[], r.mem.files.map File.id, rfl, rfl, fun i hi => .inr hi, by simp⟩
    · obtain ⟨l, hl, hc, hlt⟩ := h.cursor d hd
      exact ⟨l, (update_of_ne (h.dirLt d hd).ne _ _).trans hl, hc,
        fun i hi => (hlt i hi).trans (Nat.lt_succ_self _)⟩

theorem Inv.closedir (h : Inv r) (i : ℕ) :
    Inv ⟨{ r.mem with dcookies := r.mem.dcookies.filter fun d => d.id ≠ i },
      update r.listing i none⟩ := by
  have hmem {d : Dir} : d ∈ r.mem.dcookies.filter (fun d => d.id ≠ i) ↔
      d ∈ r.mem.dcookies ∧ d.id ≠ i := by simp
  refine ⟨h.ids, h.lt, h.named, h.names, Keyed.nodup_filter h.dirIds _,
    fun d hd => h.dirLt d (hmem.1 hd).1, fun j hj => ?_, fun d hd => ?_⟩
  · by_cases hji : j = i
    · subst hji
      simp at hj
    · obtain ⟨d, hd, rfl⟩ := h.listed j (by simpa [update_of_ne hji] using hj)
      exact ⟨d, hmem.2 ⟨hd, hji⟩, rfl⟩
  · obtain ⟨l, hl, hc⟩ := h.cursor d (hmem.1 hd).1
    exact ⟨l, (update_of_ne (hmem.1 hd).2 _ _).trans hl, hc⟩

/-- The node behind the first that is left. -/
theorem listNext_split {before rest : List ℕ} {k : ℕ} (h : k ∉ before) :
    listNext (before ++ k :: rest) k = rest.head? := by
  have hdrop : (before ++ k :: rest).dropWhile (fun i => i ≠ k) = k :: rest := by
    rw [List.dropWhile_append_of_pos fun a ha => by
      have : a ≠ k := fun he => h (he ▸ ha)
      simpa using this]
    simp
  rw [listNext, hdrop, List.tail_cons]

/-- A cursor returns a file and moves on. -/
theorem Inv.readdir (h : Inv r) {d : Dir} (hd : d ∈ r.mem.dcookies) {k : ℕ}
    (hk : d.nextFile = some k) :
    ∃ f l, r.mem.fileAt k = some f ∧ r.listing d.id = some l ∧ k ∉ l.returned ∧
      Inv ⟨{ r.mem with dcookies := r.mem.dcookies.map fun e =>
          if e.id = d.id then { e with nextFile := listNext (r.mem.files.map File.id) k } else e },
        update r.listing d.id (some { l with returned := l.returned ++ [k] })⟩ := by
  obtain ⟨l, hl, ⟨before, rest, hsplit, hnext, hpresent, hreturned⟩, hlt⟩ := h.cursor d hd
  obtain ⟨rest', rfl⟩ : ∃ rest', rest = k :: rest' := by
    rw [hk] at hnext
    cases rest with
    | nil => simp at hnext
    | cons j rest' => exact ⟨rest', by simp_all⟩
  have hkids : k ∈ r.mem.files.map File.id := by simp [hsplit]
  obtain ⟨f, hf, hfid⟩ := List.mem_map.1 hkids
  have hnodup := h.ids
  rw [hsplit, List.nodup_append, List.nodup_cons] at hnodup
  have hbefore : k ∉ before := fun hb => hnodup.2.2 k hb k List.mem_cons_self rfl
  refine ⟨f, l, h.fileAt_iff.2 ⟨hf, hfid⟩, hl, fun hm => hreturned k hm List.mem_cons_self, ?_⟩
  have hdids := Keyed.map_key (k := Dir.id) (l := r.mem.dcookies)
    (f := fun e => if e.id = d.id then
      { e with nextFile := listNext (r.mem.files.map File.id) k } else e)
    fun e _ => by split_ifs <;> rfl
  refine ⟨h.ids, h.lt, h.named, h.names, by rw [hdids]; exact h.dirIds, ?_, ?_, ?_⟩
  · intro e he
    obtain ⟨e', he', rfl⟩ := List.mem_map.1 he
    split_ifs <;> exact h.dirLt e' he'
  · intro i hi
    have hi : (r.listing i).isSome := by
      by_cases hid : i = d.id
      · rw [hid, hl]
        rfl
      · simpa [update_of_ne hid] using hi
    obtain ⟨e, he, rfl⟩ := h.listed i hi
    refine ⟨_, List.mem_map_of_mem he, ?_⟩
    split_ifs <;> rfl
  · intro e he
    obtain ⟨e', he', rfl⟩ := List.mem_map.1 he
    split_ifs with hid
    · rw [hid]
      refine ⟨_, update_self .., ⟨before ++ [k], rest', by rw [hsplit]; simp,
        by rw [hsplit]; exact listNext_split hbefore, fun i hi => ?_, fun i hi => ?_⟩, ?_⟩
      · rcases hpresent i hi with hr | hr
        · exact .inl (List.mem_append_left _ hr)
        · rcases List.mem_cons.1 hr with rfl | hr
          · exact .inl (by simp)
          · exact .inr hr
      · rcases List.mem_append.1 hi with hi | hi
        · exact fun hr => hreturned i hi (List.mem_cons_of_mem _ hr)
        · obtain rfl := List.mem_singleton.1 hi
          exact hnodup.2.1.1
      · intro i hi
        rcases List.mem_append.1 hi with hi | hi
        · exact hlt i hi
        · obtain rfl := List.mem_singleton.1 hi
          exact hfid ▸ h.lt f hf
    · obtain ⟨l', hl', hc⟩ := h.cursor e' he'
      exact ⟨l', (update_of_ne hid _ _).trans hl', hc⟩

/-! ### The calls -/

theorem addOff_of_lt {off len : ℕ} (hw : w ≤ 64) (h : off + len < 2 ^ w) :
    addOff w off len = some (off + len) := by
  unfold addOff
  split_ifs with h64 hlt
  · rw [h64] at h
    rw [Nat.mod_eq_of_lt h]
  · rfl
  · have : 2 ^ w ≤ 2 ^ 63 := Nat.pow_le_pow_right (by norm_num) (by omega)
    omega

theorem Inv.create_spec (h : Inv r) (name : List Char) (len : ℕ) (fileOk dataOk nameOk : Bool)
    (hok : (Call.create name len fileOk dataOk nameOk).Meets w r.mem) :
    ∃ r' a, r.step w (.create name len fileOk dataOk nameOk) = some (r', a) ∧
      Spec w r.abs (.create name len fileOk dataOk nameOk) a r'.abs ∧ Inv r' := by
  obtain ⟨rfl, hshort⟩ := hok
  unfold Run.step Spec
  simp only [Fs.call, memfsCreate]
  by_cases hlen : 2 ^ w - 1 ≤ len
  · simp only [if_pos hlen]
    exact ⟨r, _, rfl, ⟨rfl, rfl⟩, h⟩
  by_cases hslash : '/' ∈ trimName name
  · simp only [if_neg hlen, if_pos hslash]
    exact ⟨r, _, rfl, ⟨rfl, rfl⟩, h⟩
  simp only [if_neg hlen, if_neg hslash]
  rcases h.findFile (trimName name) with ⟨f, -, -, hfind, hsome⟩ | ⟨hfind, hnone, hnew⟩
  · simp only [hfind, Option.bind_some, if_pos hsome]
    exact ⟨r, _, rfl, ⟨rfl, rfl⟩, h⟩
  · simp only [hfind, Option.bind_some, if_neg hnone]
    cases fileOk with
    | false => exact ⟨r, _, rfl, ⟨rfl, rfl⟩, h⟩
    | true =>
      cases dataOk with
      | false => exact ⟨r, _, rfl, ⟨rfl, rfl⟩, h⟩
      | true =>
        obtain ⟨hinv, hfree, habs⟩ := h.append hshort hnew (List.replicate len 0)
        exact ⟨_, _, rfl, ⟨r.mem.fresh, hfree, rfl, habs⟩, hinv⟩

theorem Inv.open_spec (h : Inv r) (name : List Char) :
    ∃ r' a, r.step w (.open name) = some (r', a) ∧ Spec w r.abs (.open name) a r'.abs ∧ Inv r' := by
  unfold Run.step Spec
  simp only [Fs.call, memfsOpen]
  rcases h.findFile (trimName name) with ⟨f, hf, hn, hfind, hsome⟩ | ⟨hfind, hnone, -⟩
  · simp only [hfind, Option.map_some, if_pos hsome]
    exact ⟨r, _, rfl, ⟨f.id, h.handle_iff.2 ⟨f, hf, rfl, hn⟩, rfl, rfl⟩, h⟩
  · simp only [hfind, Option.map_some, if_neg hnone]
    exact ⟨r, _, rfl, ⟨rfl, rfl⟩, h⟩

theorem Inv.remove_spec (h : Inv r) (name : List Char) (hok : (Call.remove name).Meets w r.mem) :
    ∃ r' a, r.step w (.remove name) = some (r', a) ∧ Spec w r.abs (.remove name) a r'.abs ∧
      Inv r' := by
  unfold Run.step Spec
  simp only [Fs.call, memfsRemove]
  rcases h.findFile (trimName name) with ⟨f, hf, hn, hfind, hsome⟩ | ⟨hfind, hnone, -⟩
  · have hcursor : ∀ d ∈ r.mem.dcookies, d.nextFile ≠ some f.id := fun d hd he =>
      hok d hd f.id he (by rw [h.fileAt_iff.2 ⟨hf, rfl⟩, Option.bind_some, hn])
    obtain ⟨hinv, habs⟩ := h.removeFile hf hn hcursor
    simp only [hfind, Option.map_some, if_pos hsome]
    exact ⟨_, _, rfl, ⟨rfl, habs⟩, hinv⟩
  · simp only [hfind, Option.map_some, if_neg hnone]
    exact ⟨r, _, rfl, ⟨rfl, rfl⟩, h⟩

/-- The file a valid cookie stands for. -/
theorem Inv.file (h : Inv r) {id : ℕ} (hid : (r.mem.fileAt id).isSome) :
    ∃ f n, r.mem.fileAt id = some f ∧ f ∈ r.mem.files ∧ f.id = id ∧ f.name = some n ∧
      r.abs.handle id = some n ∧ r.abs.store n = some f.ptr := by
  obtain ⟨f, hf⟩ := Option.isSome_iff_exists.1 hid
  obtain ⟨hmem, hfid⟩ := h.fileAt_iff.1 hf
  obtain ⟨n, hn, -⟩ := h.named f hmem
  exact ⟨f, n, hf, hmem, hfid, hn, h.handle_iff.2 ⟨f, hmem, hfid, hn⟩,
    h.store_iff.2 ⟨f, hmem, hn, rfl⟩⟩

theorem Inv.read_spec (h : Inv r) (id : ℕ) (off : ℤ) (len : ℕ)
    (hok : (Call.read id off len).Meets w r.mem) :
    ∃ a, r.step w (.read id off len) = some (r, a) ∧ Spec w r.abs (.read id off len) a r.abs := by
  obtain ⟨hid, hadd⟩ := hok
  obtain ⟨f, n, hf, -, -, -, hhandle, hstore⟩ := h.file hid
  have hadd := hadd f hf
  unfold Run.step Spec
  simp only [Fs.call, memfsRead, hf, Option.bind_some]
  by_cases hneg : off < 0
  · simp only [if_pos hneg]
    exact ⟨_, rfl, n, f.ptr, hhandle, hstore, rfl, rfl⟩
  simp only [if_neg hneg]
  by_cases hend : f.ptr.length ≤ off.toNat
  · simp only [if_pos hend]
    refine ⟨_, rfl, n, f.ptr, hhandle, hstore, ?_, trivial⟩
    rw [List.drop_eq_nil_of_le hend, List.take_nil]
  · simp only [if_neg hend, hadd (by omega) (by omega), Option.bind_some]
    by_cases hclip : f.ptr.length < off.toNat + len
    · simp only [if_pos hclip]
      rw [if_pos (by omega)]
      refine ⟨_, rfl, n, f.ptr, hhandle, hstore, ?_, trivial⟩
      rw [List.take_of_length_le (by simp), List.take_of_length_le (by simp; omega)]
    · simp only [if_neg hclip]
      rw [if_pos (by omega)]
      exact ⟨_, rfl, n, f.ptr, hhandle, hstore, rfl, trivial⟩

theorem Inv.truncate_spec (h : Inv r) (id len : ℕ) (ok : Bool) (hid : (r.mem.fileAt id).isSome) :
    ∃ r' a, r.step w (.truncate id len ok) = some (r', a) ∧
      Spec w r.abs (.truncate id len ok) a r'.abs ∧ Inv r' := by
  obtain ⟨f, n, hf, hmem, hfid, hn, hhandle, hstore⟩ := h.file hid
  unfold Run.step Spec
  simp only [Fs.call, memfsTruncate, hf, Option.map_some]
  by_cases hgrow : f.ptr.length < len
  · simp only [if_pos hgrow]
    exact ⟨r, _, rfl, ⟨n, f.ptr, hhandle, hstore, by rw [if_pos hgrow]; exact ⟨rfl, rfl⟩⟩, h⟩
  simp only [if_neg hgrow]
  cases ok with
  | false =>
    exact ⟨r, _, rfl, ⟨n, f.ptr, hhandle, hstore, by rw [if_neg hgrow]; exact ⟨rfl, rfl⟩⟩, h⟩
  | true =>
    obtain ⟨hinv, habs⟩ := h.setPtr hmem hn (f.ptr.take len)
    rw [hfid] at hinv habs
    exact ⟨_, _, rfl, ⟨n, f.ptr, hhandle, hstore, by rw [if_neg hgrow]; exact ⟨rfl, habs⟩⟩, hinv⟩

/-- A write in range and with memory stores the bytes at `off`; any other leaves the file as it was. -/
theorem Inv.write_spec (hw : w ≤ 64) (h : Inv r) (id : ℕ) (buf : List UInt8) (off : ℤ) (ok : Bool)
    (heap : ℕ → UInt8) (hok : (Call.write id buf off ok heap).Meets w r.mem) :
    ∃ r' a, r.step w (.write id buf off ok heap) = some (r', a) ∧
      Spec w r.abs (.write id buf off ok heap) a r'.abs ∧ Inv r' := by
  obtain ⟨hid, hfits⟩ := hok
  obtain ⟨f, n, hf, hmem, hfid, hn, hhandle, hstore⟩ := h.file hid
  have hfits := hfits f hf
  unfold Run.step Spec
  simp only [Fs.call, memfsWrite, hf, Option.bind_some]
  by_cases hneg : off < 0
  · simp only [if_pos hneg]
    exact ⟨r, _, rfl, ⟨n, f.ptr, hhandle, hstore, rfl, rfl⟩, h⟩
  obtain ⟨hlt, hhole⟩ := hfits (by omega)
  simp only [if_neg hneg, addOff_of_lt hw hlt, Option.bind_some]
  by_cases hno : f.ptr.length < off.toNat + buf.length ∧ ok = false
  · simp only [if_pos hno]
    exact ⟨r, _, rfl, ⟨n, f.ptr, hhandle, hstore, by rw [if_pos hno]; exact ⟨rfl, rfl⟩⟩, h⟩
  simp only [if_neg hno]
  rw [Nat.mod_eq_of_lt hlt, Nat.mod_eq_of_lt (show off.toNat < 2 ^ w by omega)]
  -- the buffer after `realloc` reaches the end of what is written
  obtain ⟨ptr, hptr, hreach, hput⟩ : ∃ ptr, ptr = (if f.ptr.length < off.toNat + buf.length then
      realloc f.ptr (off.toNat + buf.length) heap else f.ptr) ∧
      off.toNat + buf.length ≤ ptr.length ∧ putAt ptr off.toNat buf = written f.ptr off.toNat buf := by
    refine ⟨_, rfl, ?_, ?_⟩
    · split_ifs with hgrow
      · simp [realloc]
      · omega
    · split_ifs with hgrow
      · have hok : ok = true := by
          rw [not_and, Bool.not_eq_false] at hno
          exact hno hgrow
        exact putAt_realloc (hhole hok) buf hgrow heap
      · exact (written_of_le (by omega) buf).symm
  rw [← hptr, if_pos hreach]
  obtain ⟨hinv, habs⟩ := h.setPtr hmem hn (putAt ptr off.toNat buf)
  rw [hfid, hput] at hinv habs
  rw [hput]
  exact ⟨_, _, rfl, ⟨n, f.ptr, hhandle, hstore, by rw [if_neg hno]; exact ⟨rfl, habs⟩⟩, hinv⟩

theorem Inv.opendir_spec (h : Inv r) (name : List Char) (ok : Bool) :
    ∃ r' a, r.step w (.opendir name ok) = some (r', a) ∧ Spec w r.abs (.opendir name ok) a r'.abs ∧
      Inv r' := by
  unfold Run.step Spec
  simp only [Fs.call, memfsOpendir]
  by_cases hname : trimName name ≠ []
  · simp only [if_pos hname]
    exact ⟨r, _, rfl, ⟨rfl, rfl⟩, h⟩
  simp only [if_neg hname]
  cases ok with
  | false => exact ⟨r, _, rfl, ⟨rfl, rfl⟩, h⟩
  | true =>
    obtain ⟨hinv, hfree⟩ := h.opendir
    refine ⟨_, _, rfl, ⟨r.mem.fresh, r.mem.files.map File.id, hfree, fun i => ?_, rfl, rfl⟩, hinv⟩
    rw [Option.isSome_iff_exists, List.mem_map]
    simp only [h.handle_iff]
    constructor
    · rintro ⟨f, hf, rfl⟩
      obtain ⟨n, hn, -⟩ := h.named f hf
      exact ⟨n, f, hf, rfl, hn⟩
    · rintro ⟨n, f, hf, hid, -⟩
      exact ⟨f, hf, hid⟩

theorem Inv.readdir_spec (h : Inv r) (id : ℕ) (hid : (r.mem.dirAt id).isSome) :
    ∃ r' a, r.step w (.readdir id) = some (r', a) ∧ Spec w r.abs (.readdir id) a r'.abs ∧
      Inv r' := by
  obtain ⟨d, hd⟩ := Option.isSome_iff_exists.1 hid
  obtain ⟨hdm, rfl⟩ := h.dirAt_iff.1 hd
  unfold Run.step Spec
  simp only [Fs.call, memfsReaddir, hd, Option.bind_some]
  cases hk : d.nextFile with
  | none =>
    obtain ⟨l, hl, ⟨before, rest, -, hnext, hpresent, -⟩, -⟩ := h.cursor d hdm
    refine ⟨r, _, rfl, ⟨l, hl, .inr ⟨⟨rfl, rfl⟩, fun i hi => ?_⟩⟩, h⟩
    have hrest : rest = [] := by
      rw [hk] at hnext
      exact List.head?_eq_none_iff.1 hnext.symm
    exact (hpresent i hi).resolve_right (by simp [hrest])
  | some k =>
    obtain ⟨f, l, hf, hl, hnew, hinv⟩ := h.readdir hdm hk
    obtain ⟨hfm, hfid⟩ := h.fileAt_iff.1 hf
    obtain ⟨n, hn, hshort⟩ := h.named f hfm
    have htake : n.take (fsMaxFileLen - 1) = n := List.take_of_length_le (by omega)
    simp only [hf, Option.bind_some, hn, Option.map_some, htake]
    refine ⟨_, _, rfl, ⟨l, hl, .inl ⟨k, n, h.handle_iff.2 ⟨f, hfm, hfid, hn⟩, hnew, rfl, ?_⟩⟩, ?_⟩
    · simp only [Run.record, hd, Option.bind_some, hk, hl, Option.map_some, Option.toList_some]
      rfl
    · simpa only [Run.record, hd, Option.bind_some, hk, hl, Option.map_some,
        Option.toList_some] using hinv

/-- **One call.**  Under the condition it is defined and does what it means on the map. -/
theorem Inv.step (hw : w ≤ 64) (h : Inv r) {call : Call} (hok : call.Meets w r.mem) :
    ∃ r' a, r.step w call = some (r', a) ∧ Spec w r.abs call a r'.abs ∧ Inv r' := by
  cases call with
  | create name len fileOk dataOk nameOk => exact h.create_spec name len fileOk dataOk nameOk hok
  | «open» name => exact h.open_spec name
  | remove name => exact h.remove_spec name hok
  | read id off len =>
    obtain ⟨a, hstep, hspec⟩ := h.read_spec id off len hok
    exact ⟨r, a, hstep, hspec, h⟩
  | truncate id len ok => exact h.truncate_spec id len ok hok
  | write id buf off ok heap => exact h.write_spec hw id buf off ok heap hok
  | opendir name ok => exact h.opendir_spec name ok
  | readdir id => exact h.readdir_spec id hok
  | closedir id =>
    obtain ⟨d, hd⟩ := Option.isSome_iff_exists.1 hok
    refine ⟨_, _, by rw [Run.step, Fs.call, memfsClosedir, hd]; rfl, ⟨rfl, rfl⟩, h.closedir id⟩

/-! ### Runs of calls -/

theorem inv_mount : Inv Run.mount := by
  refine ⟨?_, ?_, ?_, ?_, ?_, ?_, ?_, ?_⟩ <;> simp [Run.mount]

/-- An empty map. -/
def Abs.empty : Abs := ⟨fun _ => none, fun _ => none, fun _ => none⟩

/-- **memfs is a map from names to byte strings.**  Every run of calls that meet the
condition, on cookies of files and directories that are there, is defined and answers
as the map does. -/
theorem memfs_refines (hw : w ≤ 64) (calls : List Call)
    (hok : Machine.Along (fun r call => (Run.step w r call).map Prod.fst)
      (fun r call => call.Meets w r.mem) Run.mount calls) :
    ∃ r answers, Machine.trace (Run.step w) Run.mount calls = some (r, answers) ∧
      Machine.Accepts (Spec w) Abs.empty calls answers r.abs := by
  obtain ⟨r, answers, htrace, haccepts, -⟩ :=
    @Machine.trace_accepted _ _ _ _ _ (Spec w) Inv Run.abs (fun r call => call.Meets w r.mem)
      (fun r call h hmeets => h.step hw hmeets) calls Run.mount inv_mount hok
  exact ⟨r, answers, htrace, haccepts⟩

/-- A file of three bytes, and a read that is clipped. -/
theorem memfs_refines_read :
    ∃ r answers, Machine.trace (Run.step 64) Run.mount
        [.create ['a'] 3 true true true, .read 0 1 5] = some (r, answers) ∧
      Machine.Accepts (Spec 64) Abs.empty [.create ['a'] 3 true true true, .read 0 1 5] answers
        r.abs := by
  refine memfs_refines le_rfl _ ⟨⟨rfl, by decide⟩, fun r hr => ⟨?_, fun _ _ => trivial⟩⟩
  cases hr
  exact ⟨rfl, fun file hfile _ _ => rfl⟩

/-- The cookie of a call stands for a file or a directory that is there. -/
def Call.Valid (mem : Fs) : Call → Prop
  | .read id _ _ => (mem.fileAt id).isSome
  | .truncate id _ _ => (mem.fileAt id).isSome
  | .write id _ _ _ _ => (mem.fileAt id).isSome
  | .readdir d => (mem.dirAt d).isSome
  | .closedir d => (mem.dirAt d).isSome
  | _ => True

/-- memfs is a map from names to byte strings in every run on valid cookies. -/
def RefinesMap (w : ℕ) : Prop :=
  ∀ calls : List Call, Machine.Along (fun r call => (Run.step w r call).map Prod.fst)
      (fun r call => call.Valid r.mem) Run.mount calls →
    ∃ r answers, Machine.trace (Run.step w) Run.mount calls = some (r, answers) ∧
      Machine.Accepts (Spec w) Abs.empty calls answers r.abs

/-- **A hole does not read as zero**: one byte written behind the end of an empty file,
and the byte before it is what the heap held there. -/
theorem hole_not_zero : ¬ RefinesMap 64 := by
  intro h
  obtain ⟨r, answers, htrace, haccepts⟩ := h
    [.create ['a'] 0 true true true, .write 0 [1] 1 true fun _ => 7, .read 0 0 2]
    ⟨trivial, fun r₁ h₁ => by
      cases h₁
      exact ⟨rfl, fun r₂ h₂ => by
        cases h₂
        exact ⟨rfl, fun _ _ => trivial⟩⟩⟩
  have hanswers : (Machine.trace (Run.step 64) Run.mount [.create ['a'] 0 true true true,
      .write 0 [1] 1 true fun _ => 7, .read 0 0 2]).map Prod.snd =
        some [.file 0, .count 1, .bytes [7, 1]] := by
    decide
  obtain rfl : answers = [.file 0, .count 1, .bytes [7, 1]] := by
    simpa [htrace] using hanswers
  -- the map the calls lead to holds a zero
  rcases haccepts with _ | ⟨h₁, h'⟩
  rcases h' with _ | ⟨h₂, h'⟩
  rcases h' with _ | ⟨h₃, h'⟩
  obtain ⟨id, rfl, rfl⟩ := by simpa [Spec, Abs.empty, trimName] using h₁
  obtain ⟨-, rfl⟩ : True ∧ _ = _ := by simpa [Spec] using h₂
  simp [Spec, written] at h₃

end Memfs
end LittleKernel
