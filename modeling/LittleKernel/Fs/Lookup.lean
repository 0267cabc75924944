/-
# Which mount a path leads to

`lib/fs/fs.c`: `find_mount`, and `mount`, `fs_unmount` and the functions that open, as far
as they go by it.

`find_mount` takes the newest mount whose path is a prefix of the string, so `/a` also
takes `/ab`.  `mount` refuses a path that any mount takes; hence of two mounts that take
one path the newer has the shorter path (`Listed.shorter`), and `find_mount` returns the
shortest.  `find_mount_resolves_iff` says for which paths this is the mount that the
components of the path lead to, and for which paths `mount` refuses nothing but a mount
point; `findMount_rest` says what a file system is handed of a path.
-/

import Mathlib.Data.List.TakeWhile
import LittleKernel.Fs.Mounts
import LittleKernel.Fs.Normalize

namespace LittleKernel
namespace Fs

open Machine

/-! ### Resolving a path -/

/-- `FS_MAX_PATH_LEN`. -/
def fsMaxPathLen : ℕ := 128

/-- The path after `strlcpy` and `fs_normalize_path`. -/
def temppath (path : List Char) : List Char :=
  Normalize.normalized ((path.takeWhile (· ≠ Normalize.nul)).take (fsMaxPathLen - 1))

/-- `find_mount`, with `trimmed_path`. -/
def findMount (path : List Char) (s : State) : Option (Mount × List Char) :=
  (s.lookup path).map fun m => (m, path.drop m.path.length)

/-- The path `path` is `mountPath` or goes on behind a slash. -/
def Under (mountPath path : List Char) : Prop :=
  ∃ rest, path = mountPath ++ rest ∧ (rest = [] ∨ rest.head? = some '/')

instance (mountPath path : List Char) : Decidable (Under mountPath path) :=
  decidable_of_iff (mountPath <+: path ∧
      (path.drop mountPath.length = [] ∨ (path.drop mountPath.length).head? = some '/')) <| by
    constructor
    · rintro ⟨⟨rest, rfl⟩, h⟩
      rw [List.drop_left] at h
      exact ⟨rest, rfl, h⟩
    · rintro ⟨rest, rfl, h⟩
      rw [List.drop_left]
      exact ⟨List.prefix_append _ _, h⟩

/-- The mount `m` is the one that the components of `path` lead to. -/
def Leads (path : List Char) (s : State) (m : Mount) : Prop :=
  m ∈ s.mounts ∧ Under m.path path ∧
    ∀ m' ∈ s.mounts, Under m'.path path → m'.path.length ≤ m.path.length

/-- **A path is resolved by its components**: `find_mount` returns the mount they lead to
and the rest of the path, and nothing when there is none; opening and unmounting leave all
other mounts alone, and a handle that is opened is on that mount. -/
structure Resolves (path : List Char) (s : State) : Prop where
  found : ∀ m rest, findMount path s = some (m, rest) → Leads path s m ∧ path = m.path ++ rest
  none : findMount path s = none → ∀ m ∈ s.mounts, ¬Under m.path path
  unmount : ∀ s', fsUnmount path s = some s' → ∀ m ∈ s.mounts, ¬Leads path s m → m ∈ s'.mounts
  opening : ∀ kind supported err s', openHandle kind path supported err s = some s' →
    (∀ m ∈ s.mounts, ¬Leads path s m → m ∈ s'.mounts) ∧
      ∀ h ∈ s'.handles, h ∈ s.handles ∨ ∃ m, Leads path s m ∧ h.mount = m.id

/-- **Only a mount point is taken**: where `path` is none, `mount` adds it, when the device
and the filesystem do not refuse. -/
def Mountable (path : List Char) (s : State) : Prop :=
  (∀ m ∈ s.mounts, m.path ≠ path) →
    ∃ s' m, mount path true false s = some s' ∧ m ∈ s'.mounts ∧ m.path = path

/-- Of the mounts whose path is a prefix of the string, the components of `path` lead to
the shortest and to no other. -/
def OnlyShortest (path : List Char) (s : State) : Prop :=
  ∀ m ∈ s.mounts, m.path <+: path →
    (Under m.path path ↔ ∀ m' ∈ s.mounts, m'.path <+: path → m.path.length ≤ m'.path.length)

/-! ### The list of mounts -/

/-- **The invariant of the list**: no mount is taken by an older one, and no number is
used twice. -/
structure Listed (s : State) : Prop where
  newer : s.mounts.Pairwise fun m older => ¬older.path <+: m.path
  ids : (s.mounts.map Mount.id).Nodup
  fresh : ∀ m ∈ s.mounts, m.id < s.fresh

section Invariant

variable {s s' : State} {m m' : Mount} {i : ℕ} {path : List Char}

theorem mem_addRef_of_ne {k : ℤ} (hm : m ∈ s.mounts) (hi : m.id ≠ i) :
    m ∈ (s.addRef i k).mounts :=
  List.mem_map.2 ⟨m, hm, if_neg hi⟩

section

variable (h : Listed s)
include h

theorem Listed.addRef (i : ℕ) (k : ℤ) : Listed (s.addRef i k) := by
  refine ⟨?_, by rw [ids_addRef]; exact h.ids, fun m' hm' => ?_⟩
  · refine List.pairwise_map.2 (h.newer.imp fun {m m'} hlt => ?_)
    split_ifs <;> exact hlt
  · obtain ⟨m, hm, hid, -⟩ := mem_addRef hm'
    exact hid ▸ h.fresh m hm

theorem Listed.filter (keep : Mount → Bool) (released : List ℕ) :
    Listed { s with mounts := s.mounts.filter keep, released := released } :=
  ⟨h.newer.filter _, h.ids.sublist (List.filter_sublist.map _),
    fun m hm => h.fresh m (List.mem_filter.1 hm).1⟩

theorem Listed.putMount (hs : Fs.putMount i s = some s') : Listed s' := by
  unfold Fs.putMount at hs
  split at hs
  · cases hs
  · split_ifs at hs
    · cases hs
      exact h.filter _ _
    · cases hs
      exact h.addRef _ _

theorem Listed.handles (handles : List Handle) :
    Listed { s with handles := handles } :=
  ⟨h.newer, h.ids, h.fresh⟩

theorem Listed.mount {dev err : Bool} (hs : Fs.mount path dev err s = some s') :
    Listed s' := by
  unfold Fs.mount at hs
  by_cases hroot : path.head? ≠ some '/'
  · rw [if_pos hroot] at hs
    exact Option.some.inj hs ▸ h
  rw [if_neg hroot] at hs
  cases hl : s.lookup path with
  | some m =>
    simp only [hl] at hs
    exact (h.addRef _ _).putMount hs
  | none =>
    simp only [hl] at hs
    split_ifs at hs
    · cases hs
      exact h
    cases hs
    have hfree : ∀ m ∈ s.mounts, ¬m.path <+: path := by
      simpa [State.lookup] using hl
    refine ⟨List.pairwise_cons.2 ⟨hfree, h.newer⟩, ?_, ?_⟩
    · refine List.nodup_cons.2 ⟨fun hm => ?_, h.ids⟩
      obtain ⟨m, hm, he⟩ := List.mem_map.1 hm
      exact (h.fresh m hm).ne he
    · rintro m (_ | ⟨_, hm⟩)
      · exact Nat.lt_succ_self _
      · exact Nat.lt_succ_of_lt (h.fresh m hm)

theorem Listed.fsUnmount (hs : Fs.fsUnmount path s = some s') : Listed s' := by
  unfold Fs.fsUnmount at hs
  split at hs
  · exact Option.some.inj hs ▸ h
  · obtain ⟨s₁, h₁, hs⟩ := Option.bind_eq_some_iff.1 hs
    obtain ⟨s₂, h₂, hs⟩ := Option.bind_eq_some_iff.1 hs
    cases hs
    have := ((h.addRef _ _).putMount h₁).putMount h₂
    exact ⟨this.newer, this.ids, this.fresh⟩

theorem Listed.openHandle {kind : Kind} {supported err : Bool}
    (hs : Fs.openHandle kind path supported err s = some s') : Listed s' := by
  unfold Fs.openHandle at hs
  split at hs
  · exact Option.some.inj hs ▸ h
  · split_ifs at hs
    · exact (h.addRef _ _).putMount hs
    · cases hs
      have := h.addRef (by assumption : Mount).id 1
      exact ⟨this.newer, this.ids, fun m hm => Nat.lt_succ_of_lt (this.fresh m hm)⟩

theorem Listed.closeHandle {kind : Kind} {handle : ℕ} {supported err : Bool}
    (hs : Fs.closeHandle kind handle supported err s = some s') : Listed s' := by
  unfold Fs.closeHandle at hs
  split at hs
  · cases hs
  · split_ifs at hs
    · cases hs
      exact h
    · exact (h.handles _).putMount hs

theorem Listed.fsRemoveFile (hs : Fs.fsRemoveFile path s = some s') :
    Listed s' := by
  unfold Fs.fsRemoveFile at hs
  split at hs
  · exact Option.some.inj hs ▸ h
  · exact (h.addRef _ _).putMount hs

end

variable {normalize : List Char → List Char}

theorem Listed.step {a : Op} (h : Listed s) (hs : Fs.step normalize s a = some s') : Listed s' := by
  cases a with
  | mount path fs dev err =>
    simp only [Fs.step] at hs
    split_ifs at hs
    · exact h.mount hs
    · exact Option.some.inj hs ▸ h
  | unmount path => exact h.fsUnmount hs
  | openFile path err => exact h.openHandle hs
  | createFile path supported err => exact h.openHandle hs
  | openDir path supported err => exact h.openHandle hs
  | closeFile handle err => exact h.closeHandle hs
  | closeDir handle supported err => exact h.closeHandle hs
  | removeFile path => exact h.fsRemoveFile hs

theorem listed_initial : Listed initial := by
  constructor <;> simp [initial]

/-- **Every run keeps the list.** -/
theorem listed_of_run {ops : List Op} (h : run (Fs.step normalize) initial ops = some s) :
    Listed s :=
  run_inv (fun _ _ _ h hs => h.step hs) ops initial s listed_initial h

end Invariant

/-! ### What `find_mount` finds -/

section Lookup

variable {s : State} {m m' : Mount} {path : List Char}

theorem lookup_spec (hm : s.lookup path = some m) : m ∈ s.mounts ∧ m.path <+: path :=
  ⟨mem_of_lookup hm, by simpa [State.lookup] using List.find?_some hm⟩

theorem lookup_none (hm : s.lookup path = none) : ∀ m ∈ s.mounts, ¬m.path <+: path := by
  simpa [State.lookup] using hm

/-- **The newest is the shortest.**  The mount found has the shortest path of those that
take the string, and is the only one of its length. -/
theorem Listed.shortest (h : Listed s) (hm : s.lookup path = some m) (hm' : m' ∈ s.mounts)
    (hpath : m'.path <+: path) : m.path.length ≤ m'.path.length := by
  obtain ⟨newer, older, hsplit, hnewer⟩ : ∃ newer older, s.mounts = newer ++ m :: older ∧
      ∀ m ∈ newer, ¬m.path <+: path := by
    obtain ⟨-, newer, older, hsplit, hnewer⟩ := List.find?_eq_some_iff_append.1 hm
    refine ⟨newer, older, hsplit, fun m hm hp => ?_⟩
    have := hnewer m hm
    rw [List.isPrefixOf_iff_prefix.2 hp] at this
    cases this
  rw [hsplit] at hm'
  rcases List.mem_append.1 hm' with hm' | hm'
  · exact absurd hpath (hnewer m' hm')
  rcases List.mem_cons.1 hm' with rfl | hm'
  · exact Nat.le_refl _
  · have hnot : ¬m'.path <+: m.path := by
      have := h.newer
      rw [hsplit, List.pairwise_append, List.pairwise_cons] at this
      exact this.2.1.1 m' hm'
    by_contra hlt
    exact hnot (List.prefix_of_prefix_length_le hpath (lookup_spec hm).2 (by omega))

theorem Under.prefix {mountPath : List Char} (h : Under mountPath path) : mountPath <+: path :=
  let ⟨rest, he, _⟩ := h
  ⟨rest, he.symm⟩

/-- The mount found is the one of the components, exactly when only the shortest is. -/
theorem Listed.leads_iff (h : Listed s) (hm : s.lookup path = some m) :
    Leads path s m ↔ OnlyShortest path s := by
  obtain ⟨hmem, hpath⟩ := lookup_spec hm
  constructor
  · rintro ⟨-, hunder, hlongest⟩ m' hm' hpath'
    constructor
    · intro hunder' m'' hm'' hpath''
      exact (hlongest m' hm' hunder').trans (h.shortest hm hm'' hpath'')
    · intro hshortest
      have hlen : m'.path.length = m.path.length :=
        Nat.le_antisymm (hshortest m hmem hpath) (h.shortest hm hm' hpath')
      have heq : m'.path = m.path :=
        (List.prefix_of_prefix_length_le hpath' hpath hlen.le).eq_of_length hlen
      exact heq ▸ hunder
  · intro honly
    refine ⟨hmem, (honly m hmem hpath).2 fun m' hm' hp => h.shortest hm hm' hp, ?_⟩
    intro m' hm' hunder'
    exact (honly m' hm' hunder'.prefix).1 hunder' m hmem hpath

/-- The mounts that `put_mount` is not about stay as they are. -/
theorem mem_putMount {s' : State} {i : ℕ} (hs : putMount i s = some s') (hm : m ∈ s.mounts)
    (hi : m.id ≠ i) : m ∈ s'.mounts := by
  unfold putMount at hs
  split at hs
  · cases hs
  · split_ifs at hs
    · cases hs
      exact List.mem_filter.2 ⟨hm, by simpa using hi⟩
    · cases hs
      exact mem_addRef_of_ne hm hi

/-- Another mount than the one found has another number. -/
theorem Listed.ne_of_not_leads (h : Listed s) (hm : s.lookup path = some m)
    (hleads : Leads path s m) (hm' : m' ∈ s.mounts) (hnot : ¬Leads path s m') : m'.id ≠ m.id :=
  fun he => hnot (List.inj_on_of_nodup_map h.ids hm' (mem_of_lookup hm) he ▸ hleads)

theorem Listed.fsUnmount_others {s' : State} (h : Listed s)
    (hleads : ∀ m, s.lookup path = some m → Leads path s m) (hs : Fs.fsUnmount path s = some s')
    (hm : m ∈ s.mounts) (hnot : ¬Leads path s m) : m ∈ s'.mounts := by
  unfold Fs.fsUnmount at hs
  cases hl : s.lookup path with
  | none =>
    simp only [hl, Option.some.injEq] at hs
    exact hs ▸ hm
  | some m₀ =>
    have hne := h.ne_of_not_leads hl (hleads m₀ hl) hm hnot
    simp only [hl] at hs
    obtain ⟨s₁, h₁, hs⟩ := Option.bind_eq_some_iff.1 hs
    obtain ⟨s₂, h₂, hs⟩ := Option.bind_eq_some_iff.1 hs
    cases hs
    change m ∈ s₂.mounts
    exact mem_putMount h₂ (mem_putMount h₁ (mem_addRef_of_ne hm hne) hne) hne

theorem putMount_handles {s' : State} {i : ℕ} (hs : putMount i s = some s') :
    s'.handles = s.handles := by
  unfold putMount at hs
  split at hs
  · cases hs
  · split_ifs at hs <;> cases hs <;> rfl

theorem Listed.openHandle_others {s' : State} {kind : Kind} {supported err : Bool} (h : Listed s)
    (hleads : ∀ m, s.lookup path = some m → Leads path s m)
    (hs : Fs.openHandle kind path supported err s = some s') :
    (∀ m ∈ s.mounts, ¬Leads path s m → m ∈ s'.mounts) ∧
      ∀ k ∈ s'.handles, k ∈ s.handles ∨ ∃ m, Leads path s m ∧ k.mount = m.id := by
  unfold Fs.openHandle at hs
  cases hl : s.lookup path with
  | none =>
    simp only [hl, Option.some.injEq] at hs
    subst hs
    exact ⟨fun m hm _ => hm, fun k hk => .inl hk⟩
  | some m₀ =>
    simp only [hl] at hs
    have hstay : ∀ m ∈ s.mounts, ¬Leads path s m → m.id ≠ m₀.id := fun m hm =>
      h.ne_of_not_leads hl (hleads m₀ hl) hm
    split_ifs at hs
    · refine ⟨fun m hm hnot => ?_, fun k hk => ?_⟩
      · exact mem_putMount hs (mem_addRef_of_ne hm (hstay m hm hnot)) (hstay m hm hnot)
      · rw [putMount_handles hs] at hk
        exact .inl hk
    · cases hs
      refine ⟨fun m hm hnot => mem_addRef_of_ne hm (hstay m hm hnot), fun k hk => ?_⟩
      rcases List.mem_cons.1 hk with rfl | hk
      · exact .inr ⟨m₀, hleads m₀ hl, rfl⟩
      · exact .inl hk

theorem Listed.resolves_iff (h : Listed s) : Resolves path s ↔ OnlyShortest path s := by
  constructor
  · intro hres
    cases hl : s.lookup path with
    | none => exact fun m hm hp => absurd hp (lookup_none hl m hm)
    | some m => exact (h.leads_iff hl).1 (hres.found m _ (by rw [findMount, hl]; rfl)).1
  · intro honly
    have hleads : ∀ m, s.lookup path = some m → Leads path s m := fun m hm =>
      (h.leads_iff hm).2 honly
    refine ⟨?_, ?_, fun s' hs m hm hnot => h.fsUnmount_others hleads hs hm hnot,
      fun kind supported err s' hs => h.openHandle_others hleads hs⟩
    · intro m rest hm
      obtain ⟨m, hl, he⟩ := Option.map_eq_some_iff.1 hm
      cases he
      exact ⟨hleads m hl, (List.prefix_iff_eq_append.1 (lookup_spec hl).2).symm⟩
    · intro hm m hmem hunder
      exact lookup_none (Option.map_eq_none_iff.1 hm) m hmem hunder.prefix

/-- `put_mount` mounts nothing. -/
theorem path_of_putMount {s' : State} {i j : ℕ} {k : ℤ}
    (hs : putMount i (s.addRef j k) = some s') (hm : m ∈ s'.mounts) :
    ∃ m' ∈ s.mounts, m'.path = m.path := by
  have hadd : ∀ {s : State} {j : ℕ} {k : ℤ} {m : Mount}, m ∈ (s.addRef j k).mounts →
      ∃ m' ∈ s.mounts, m'.path = m.path := by
    intro s j k m hm
    obtain ⟨m', hm', rfl⟩ := List.mem_map.1 hm
    exact ⟨m', hm', by split_ifs <;> rfl⟩
  unfold putMount at hs
  split at hs
  · cases hs
  · split_ifs at hs
    · cases hs
      exact hadd (List.mem_filter.1 hm).1
    · cases hs
      obtain ⟨m₁, hm₁, h₁⟩ := hadd hm
      obtain ⟨m₂, hm₂, h₂⟩ := hadd hm₁
      exact ⟨m₂, hm₂, h₂.trans h₁⟩

theorem mountable_iff (hroot : path.head? = some '/') :
    Mountable path s ↔ ∀ m ∈ s.mounts, m.path <+: path → ∃ m' ∈ s.mounts, m'.path = path := by
  by_cases hpoint : ∃ m' ∈ s.mounts, m'.path = path
  · obtain ⟨m', hm', he⟩ := hpoint
    exact ⟨fun _ _ _ _ => ⟨m', hm', he⟩, fun _ hfree => absurd he (hfree m' hm')⟩
  have hfree : ∀ m ∈ s.mounts, m.path ≠ path := fun m hm he => hpoint ⟨m, hm, he⟩
  cases hl : s.lookup path with
  | none =>
    refine ⟨fun _ m hm hp => absurd hp (lookup_none hl m hm), fun _ _ => ?_⟩
    refine ⟨{ s with mounts := ⟨s.fresh, path, 1⟩ :: s.mounts, fresh := s.fresh + 1 },
      ⟨s.fresh, path, 1⟩, ?_, List.mem_cons_self, rfl⟩
    simp [mount, hroot, hl]
  | some m₀ =>
    obtain ⟨hmem, hp⟩ := lookup_spec hl
    refine ⟨fun h => ?_, fun h => absurd (h m₀ hmem hp) hpoint⟩
    obtain ⟨s', m, hs, hm, he⟩ := h hfree
    have hput : putMount m₀.id (s.addRef m₀.id 1) = some s' := by
      simpa [mount, hroot, hl] using hs
    obtain ⟨m', hm', he'⟩ := path_of_putMount hput hm
    exact absurd (he'.trans he) (hfree m' hm')

end Lookup

section Resolution

/-- **Which paths are resolved by their components.**  In every reachable state and for
every absolute path, `find_mount`, opening and unmounting go by the components of the path
exactly when, of the mounts whose path is a prefix of the string, the components lead to the
shortest and to no other; and `mount` takes the path for mounted only at a mount point
exactly when no mount's path is a prefix of it or it is a mount point itself. -/
theorem find_mount_resolves_iff (normalize : List Char → List Char) (ops : List Op) (s : State)
    (hrun : run (step normalize) initial ops = some s) (path : List Char)
    (hroot : path.head? = some '/') :
    (Resolves path s ↔ OnlyShortest path s) ∧ (Mountable path s ↔
        ∀ m ∈ s.mounts, m.path <+: path → ∃ m' ∈ s.mounts, m'.path = path) :=
  ⟨(listed_of_run hrun).resolves_iff, mountable_iff hroot⟩

/-- A file below one of two mount points, and a third mount beside them. -/
theorem find_mount_resolves_iff_below :
    ∃ s, run (step temppath) initial
        [.mount "/a".toList true true false, .mount "/b/c".toList true true false] = some s ∧
      Resolves "/a/f".toList s ∧ Mountable "/b".toList s := by
  have hrun : run (step temppath) initial
      [.mount "/a".toList true true false, .mount "/b/c".toList true true false] =
      some ⟨[⟨1, "/b/c".toList, 1⟩, ⟨0, "/a".toList, 1⟩], [], [], [], 2⟩ := by decide
  refine ⟨_, hrun, (find_mount_resolves_iff temppath _ _ hrun _ (by decide)).1.2 ?_,
    (find_mount_resolves_iff temppath _ _ hrun _ (by decide)).2.2 (by decide)⟩
  rw [OnlyShortest]
  decide

/-- **A sibling's mount.**  With a mount at `/a`, opening `/ab` reaches it, and nothing can
be mounted at `/ab`; of two nested mounts the outer one hides the inner one. -/
theorem find_mount_sibling :
    (∃ s, run (step temppath) initial [.mount "/a".toList true true false] = some s ∧
      ¬Resolves "/ab".toList s ∧ ¬Mountable "/ab".toList s) ∧ ∃ s, run (step temppath) initial
        [.mount "/a/b".toList true true false, .mount "/a".toList true true false] = some s ∧
      ¬Resolves "/a/b/f".toList s := by
  constructor
  · refine ⟨⟨[⟨0, "/a".toList, 1⟩], [], [], [], 1⟩, by decide, fun h => ?_, fun h => ?_⟩
    · have := (h.found ⟨0, "/a".toList, 1⟩ "b".toList (by decide)).1.2.1
      exact absurd this (by decide)
    · have := (mountable_iff (by decide)).1 h ⟨0, "/a".toList, 1⟩ (by decide) (by decide)
      exact absurd this (by decide)
  · refine ⟨⟨[⟨1, "/a".toList, 1⟩, ⟨0, "/a/b".toList, 1⟩], [], [], [], 2⟩, by decide, fun h => ?_⟩
    have := (h.found ⟨1, "/a".toList, 1⟩ "/b/f".toList (by decide)).1.2.2 ⟨0, "/a/b".toList, 1⟩
      (by decide) (by decide)
    exact absurd this (by decide)

end Resolution

section Rest

open Normalize

theorem mem_tail_components_drop (p : List Char) (k : ℕ) {w : List Char}
    (hw : w ∈ (components (p.drop k)).tail) : w ∈ (components p).tail := by
  induction p generalizing k with
  | nil => rwa [List.drop_nil] at hw
  | cons c p ih =>
    cases k with
    | zero => exact hw
    | succ k =>
      have hmem := ih k hw
      rw [components_cons]
      split_ifs
      · exact List.mem_of_mem_tail hmem
      · rwa [List.tail_modifyHead]

theorem isName_of_mem_tail {p w : List Char} (hp : nul ∉ p)
    (hw : w ∈ (components (normalized p)).tail) : IsName w := by
  have hnames := foldl_isName (decide (p.head? = some '/')) (components_clean hp)
  rw [normalized, render] at hw
  split_ifs at hw with hne
  · cases hw
  · refine hnames w ?_
    rw [join] at hw
    split_ifs at hw
    · rwa [List.singleton_append, components_cons, if_pos rfl, components_join hnames hne] at hw
    · rw [List.nil_append, components_join hnames hne] at hw
      exact List.mem_of_mem_tail hw

/-- **What a file system is handed of a path**: behind its first component there are only names,
no `.` and no `..`, and nothing is in the first one where the components lead to the mount. -/
theorem findMount_rest (path junk : List Char) :
    ∃ st, Ends ((path.takeWhile (· ≠ nul)).take (fsMaxPathLen - 1) ++ nul :: junk) st ∧
      st.result = temppath path ∧ ∀ (s : State) m rest, findMount st.result s = some (m, rest) →
        (∀ w ∈ (components rest).tail, IsName w) ∧
          (Under m.path st.result → (components rest).head? = some []) := by
  have hnul : nul ∉ (path.takeWhile (· ≠ nul)).take (fsMaxPathLen - 1) := fun h => by
    simpa using List.mem_takeWhile_imp (List.mem_of_mem_take h)
  obtain ⟨st, hends, -, hresult⟩ := ends_normalized hnul junk
  refine ⟨st, hends, hresult, fun s m rest h => ?_⟩
  obtain ⟨m', -, he⟩ := Option.map_eq_some_iff.1 h
  obtain ⟨rfl, rfl⟩ := Prod.mk.inj he
  constructor
  · exact fun w hw => isName_of_mem_tail hnul (hresult ▸ mem_tail_components_drop _ _ hw)
  · rintro ⟨rest, hrest, hslash⟩
    rw [hrest, List.drop_left]
    rcases hslash with rfl | hslash
    · rfl
    · obtain ⟨rest, rfl⟩ := List.head?_eq_some_iff.1 hslash
      rw [components_cons, if_pos rfl, List.head?_cons]

/-- The mount at `/a` is handed `../x` of `/a../x`. -/
theorem findMount_rest_dots : ∀ w ∈ (components "../x".toList).tail, IsName w :=
  (findMount_rest "/a../x".toList []).elim fun _ h =>
    (h.2.2 ⟨[⟨0, "/a".toList, 1⟩], [], [], [], 1⟩ ⟨0, "/a".toList, 1⟩ _
      (by rw [h.2.1]; decide)).1

end Rest

end Fs
end LittleKernel
