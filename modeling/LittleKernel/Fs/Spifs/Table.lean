/-
# The list of files

What the calls of `lib/fs/spifs/spifs.c` keep of the list: the two tables at its ends,
every file in whole pages of the device with its length in its capacity, each file
ending before the next one starts, and no name twice.  `find_open_run` looks for the
first gap that is wide enough and `spifs_add_ascending` puts the new file into that
gap.  A capacity of zero would break this, and `spifs_create` rounds a length of the
last page below 4 GiB up to it.
-/

import LittleKernel.Fs.Spifs.Basic
import Mathlib.Data.List.Nodup
import Mathlib.Data.List.Perm.Basic

namespace LittleKernel
namespace Spifs

open Bytes Word

variable {g : Geometry} {m n : ℕ} {files : List TocFile}

/-! ### Well-formed lists -/

theorem Geometry.pageSize_pos (g : Geometry) : 0 < g.pageSize := Nat.two_pow_pos _

theorem Geometry.pageCount_lt_two_pow (g : Geometry) : g.pageCount < 2 ^ 32 := g.pageCount_lt

/-- A file that occupies pages of the device. -/
structure FileOk (g : Geometry) (f : TocFile) : Prop where
  capacity_eq : f.capacity = f.pages g * g.pageSize
  pages_pos : 0 < f.pages g
  inside : f.pageIdx + f.pages g ≤ g.pageCount
  length_le : f.length ≤ f.capacity
  name : ∃ name : CString, name.bytes.length < maxFilenameLength ∧
    f.filename = name.padded maxFilenameLength

/-- `a` ends before `b` starts. -/
def Before (g : Geometry) (a b : TocFile) : Prop := a.pageIdx + a.pages g ≤ b.pageIdx

/-- A list of files between the two tables of `m` pages, at most `n` entries in all. -/
structure Table (g : Geometry) (m n : ℕ) (files : List TocFile) : Prop where
  shape : files = frontToc g m :: (middle files ++ [backToc g m])
  ok : ∀ f ∈ files, FileOk g f
  chain : files.Pairwise (Before g)
  names : (middle files).Pairwise fun a b => a.filename ≠ b.filename
  count : files.length ≤ n

@[simp] theorem middle_cons_append (a b : TocFile) (mid : List TocFile) :
    middle (a :: (mid ++ [b])) = mid := by
  simp [middle]

/-- The file list as its users see it: sorted by page, from the front table to the back
table, every file a non-empty range of pages of the device that no other file shares,
its length within its capacity, and no two files of one name. -/
structure WellFormed (g : Geometry) (m : ℕ) (files : List TocFile) : Prop where
  sorted : files.Pairwise fun a b => a.pageIdx < b.pageIdx
  front : files.head? = some (frontToc g m)
  back : files.getLast? = some (backToc g m)
  nonempty : ∀ f ∈ files, 0 < f.pages g
  disjoint : files.Pairwise fun a b => ∀ p, a.pageIdx ≤ p → p < a.pageIdx + a.pages g →
    ¬ (b.pageIdx ≤ p ∧ p < b.pageIdx + b.pages g)
  inside : ∀ f ∈ files, f.pageIdx + f.pages g ≤ g.pageCount
  length_le : ∀ f ∈ files, f.length ≤ f.capacity
  unique : (middle files).Pairwise fun a b => a.filename ≠ b.filename

theorem Table.wellFormed (h : Table g m n files) : WellFormed g m files where
  sorted := h.chain.imp_of_mem fun ha _ hab => by
    have := (h.ok _ ha).pages_pos
    unfold Before at hab
    omega
  front := by rw [h.shape]; rfl
  back := by rw [h.shape, ← List.cons_append, List.getLast?_concat]
  nonempty f hf := (h.ok f hf).pages_pos
  disjoint := h.chain.imp fun hab p _ h₂ h₃ => by
    unfold Before at hab
    omega
  inside f hf := (h.ok f hf).inside
  length_le f hf := (h.ok f hf).length_le
  unique := h.names

/-- `consistency_check` accepts such a list. -/
theorem consistencyCheck_of_chain : ∀ {files : List TocFile}, (∀ f ∈ files, FileOk g f) →
    files.Pairwise (Before g) → consistencyCheck g files = true
  | [], _, _ => rfl
  | [_], _, _ => rfl
  | file :: next :: rest, hok, hchain => by
      obtain ⟨hbefore, hrest⟩ := List.pairwise_cons.1 hchain
      have hnext : Before g file next := hbefore next List.mem_cons_self
      obtain ⟨-, hpos, hin, -, -⟩ := hok file List.mem_cons_self
      have hcount := g.pageCount_lt_two_pow
      rw [consistencyCheck, u32_of_lt (by omega), sub32_of_le (by omega) (by omega)]
      unfold Before at hnext
      rw [if_neg (by omega)]
      exact consistencyCheck_of_chain (fun f hf => hok f (List.mem_cons_of_mem _ hf)) hrest

/-! ### Room for a file -/

/-- **`find_open_run`** finds nothing, or the end of a file that the next one leaves
enough room behind. -/
theorem findOpenRun_spec (req : ℕ) : ∀ {files : List TocFile}, (∀ f ∈ files, FileOk g f) →
    files.Pairwise (Before g) → findOpenRun g files req = noOpenRuns ∨
      ∃ pre f next rest, files = pre ++ f :: next :: rest ∧
        findOpenRun g files req = f.pageIdx + f.pages g ∧
        req ≤ (next.pageIdx - (f.pageIdx + f.pages g)) * g.pageSize
  | [], _, _ => .inl rfl
  | [_], _, _ => .inl rfl
  | file :: next :: rest, hok, hchain => by
      obtain ⟨hbefore, hrest⟩ := List.pairwise_cons.1 hchain
      have hnext : Before g file next := hbefore next List.mem_cons_self
      have hin := (hok file List.mem_cons_self).inside
      have hcount := g.pageCount_lt_two_pow
      have hend : u32 (file.pageIdx + file.pages g) = file.pageIdx + file.pages g :=
        u32_of_lt (by omega)
      rw [findOpenRun, hend, sub32_of_le next.pageIdx_lt hnext]
      split_ifs with hreq
      · exact .inr ⟨[], file, next, rest, rfl, rfl, hreq.trans (Nat.mod_le _ _)⟩
      · rcases findOpenRun_spec req (fun f hf => hok f (List.mem_cons_of_mem _ hf)) hrest with
          hnone | ⟨pre, f, next', rest', hsplit, hrun, hroom⟩
        · exact .inl hnone
        · exact .inr ⟨file :: pre, f, next', rest', by rw [hsplit]; rfl, hrun, hroom⟩

/-- **`spifs_add_ascending`** inserts behind the files that do not start later. -/
theorem spifsAddAscending_eq {t y : TocFile} {rest : List TocFile} (hy : t.pageIdx < y.pageIdx) :
    ∀ {l : List TocFile}, (∀ x ∈ l, x.pageIdx ≤ t.pageIdx) →
      spifsAddAscending (l ++ y :: rest) t = l ++ t :: y :: rest
  | [], _ => if_pos hy
  | x :: l, hl => by
      rw [List.cons_append, spifsAddAscending, if_neg (by
        have := hl x List.mem_cons_self
        omega), spifsAddAscending_eq hy fun z hz => hl z (List.mem_cons_of_mem _ hz)]
      rfl

/-- A file that fits between two neighbours of the list is inserted between them. -/
theorem Table.insert (h : Table g m n files) {pre rest : List TocFile} {f next t : TocFile}
    (hsplit : files = pre ++ f :: next :: rest) (ht : FileOk g t) (hft : Before g f t)
    (htn : Before g t next) (hname : ∀ x ∈ middle files, x.filename ≠ t.filename)
    (hroom : files.length < n) : Table g m n (spifsAddAscending files t) := by
  have hchain := h.chain
  rw [hsplit, List.append_cons, List.pairwise_append] at hchain
  obtain ⟨hleft, hright, hcross⟩ := hchain
  -- everything up to `f` ends before `t`, everything from `next` on starts behind it
  have hbefore : ∀ x ∈ pre ++ [f], Before g x t := by
    intro x hx
    rcases List.mem_append.1 hx with hx | hx
    · have hxf : Before g x f := (List.pairwise_append.1 hleft).2.2 x hx f (List.mem_singleton_self f)
      unfold Before at *
      omega
    · rwa [List.mem_singleton.1 hx]
  have hafter : ∀ y ∈ next :: rest, Before g t y := by
    intro y hy
    rcases List.mem_cons.1 hy with rfl | hy
    · exact htn
    · have hny : Before g next y := (List.pairwise_cons.1 hright).1 y hy
      unfold Before at *
      omega
  have hadd : spifsAddAscending files t = (pre ++ [f]) ++ t :: next :: rest := by
    rw [hsplit, List.append_cons]
    refine spifsAddAscending_eq ?_ fun x hx => ?_
    · have := ht.pages_pos
      unfold Before at htn
      omega
    · exact (Nat.le_add_right _ _).trans (hbefore x hx)
  -- the two tables stay at the ends
  obtain ⟨l₁, hl₁⟩ : ∃ l₁, pre ++ [f] = frontToc g m :: l₁ := by
    have hhead := h.shape
    rw [hsplit] at hhead
    cases pre with
    | nil => exact ⟨[], by rw [List.nil_append] at hhead ⊢; rw [(List.cons.inj hhead).1]⟩
    | cons x pre => exact ⟨pre ++ [f], by rw [(List.cons.inj hhead).1]; rfl⟩
  obtain ⟨l₂, hl₂⟩ : ∃ l₂, next :: rest = l₂ ++ [backToc g m] := by
    have hlast := h.shape
    rw [hsplit, List.append_cons, ← List.cons_append] at hlast
    obtain ⟨l₂, b, hb⟩ := (next :: rest).eq_nil_or_concat.resolve_left (List.cons_ne_nil _ _)
    rw [List.concat_eq_append] at hb
    rw [hb, ← List.append_assoc] at hlast
    exact ⟨l₂, by rw [hb, (List.append_inj_right' hlast rfl)]⟩
  have hmid : middle files = l₁ ++ l₂ := by
    rw [hsplit, List.append_cons, hl₁, hl₂, List.cons_append, ← List.append_assoc,
      middle_cons_append]
  have hmid' : middle (spifsAddAscending files t) = l₁ ++ t :: l₂ := by
    rw [hadd, hl₁, hl₂, ← List.cons_append, List.cons_append, ← List.append_assoc,
      middle_cons_append]
  have hperm : (spifsAddAscending files t).Perm (t :: files) := by
    rw [hadd, hsplit, show pre ++ f :: next :: rest = (pre ++ [f]) ++ next :: rest by simp]
    exact List.perm_middle
  refine ⟨?_, fun x hx => ?_, ?_, ?_, ?_⟩
  · rw [hmid', hadd, hl₁, hl₂]
    simp
  · rcases List.mem_cons.1 (hperm.mem_iff.1 hx) with rfl | hx
    · exact ht
    · exact h.ok x hx
  · rw [hadd, List.pairwise_append]
    refine ⟨hleft, List.pairwise_cons.2 ⟨hafter, hright⟩, fun x hx y hy => ?_⟩
    rcases List.mem_cons.1 hy with rfl | hy
    · exact hbefore x hx
    · exact hcross x hx y hy
  · rw [hmid', List.perm_middle.pairwise_iff fun h => Ne.symm h, ← hmid]
    exact List.pairwise_cons.2 ⟨fun x hx => (hname x hx).symm, h.names⟩
  · rw [hperm.length_eq, List.length_cons]
    exact hroom

/-! ### `spifs_create` -/

/-- A length that does not round up past the end of a `uint32_t` gets a capacity that
holds it. -/
theorem capacity_spec (g : Geometry) {len : ℕ} (hlen : len + g.pageSize ≤ 2 ^ 32) :
    ∃ k, 0 < k ∧ (if len = 0 then g.pageSize else roundup len g.pageSize) = k * g.pageSize ∧
      len ≤ k * g.pageSize ∧ k * g.pageSize < 2 ^ 32 := by
  have hps := g.pageSize_pos
  have hsize : g.pageSize < 2 ^ 32 :=
    Nat.pow_lt_pow_right (by norm_num) (by have := g.pageShift_le; omega)
  split_ifs with h0
  · exact ⟨1, Nat.one_pos, (Nat.one_mul _).symm, by omega, by omega⟩
  · have hdiv := Nat.div_add_mod (len + (g.pageSize - 1)) g.pageSize
    have hmod := Nat.mod_lt (len + (g.pageSize - 1)) hps
    rw [Nat.mul_comm] at hdiv
    refine ⟨(len + (g.pageSize - 1)) / g.pageSize, Nat.div_pos (by omega) hps, ?_, by omega,
      by omega⟩
    exact u32_of_lt (by omega)

variable {name : CString}

theorem named_of_filename_eq {f : TocFile} (hlen : name.bytes.length < maxFilenameLength)
    (hf : f.filename = name.padded maxFilenameLength) : f.named name = true := by
  rw [TocFile.named, hf, CString.ofBytes_padded hlen, List.take_of_length_le hlen.le]
  exact beq_self_eq_true _

/-- What the checks of `spifs_create` give. -/
theorem createCheck_eq_noError {s : SpifsT} {len : ℕ}
    (h : createCheck s name len = .noError) : name.bytes.length < maxFilenameLength ∧
      len < 2 ^ 32 ∧ ∀ x ∈ middle s.files, x.filename ≠ name.padded maxFilenameLength := by
  unfold createCheck at h
  split_ifs at h with h₁ h₂ h₃ h₄
  have hlen : name.bytes.length < maxFilenameLength := by omega
  refine ⟨hlen, by omega, fun x hx hxn => h₄ ?_⟩
  rw [findFile, Option.isSome_map, List.findIdx?_isSome, List.any_eq_true]
  exact ⟨x, hx, named_of_filename_eq hlen hxn⟩

theorem filename_newFile {pageIdx len capacity : ℕ} (hlen : name.bytes.length < maxFilenameLength) :
    (newFile pageIdx len capacity name).filename = name.padded maxFilenameLength :=
  List.take_of_length_le (CString.length_padded hlen.le).le

/-- **`spifs_create` keeps the list well-formed.** -/
theorem Table.create {s : SpifsT} {len : ℕ} (h : Table g m n s.files)
    (hcheck : createCheck s name len = .noError) (hroom : s.files.length < n)
    (hlen : len + g.pageSize ≤ 2 ^ 32) {capacity : ℕ}
    (hcap : capacity = if len = 0 then g.pageSize else roundup len g.pageSize)
    (hrun : findOpenRun g s.files capacity ≠ noOpenRuns) :
    Table g m n (spifsAddAscending s.files
      (newFile (findOpenRun g s.files capacity) len capacity name)) := by
  obtain ⟨hname, hlen32, hfree⟩ := createCheck_eq_noError hcheck
  obtain ⟨k, hk, hcapk, hlenk, hk32⟩ := capacity_spec g hlen
  rw [hcapk] at hcap
  obtain ⟨pre, f, next, rest, hsplit, hrunf, hgap⟩ :=
    (findOpenRun_spec capacity h.ok h.chain).resolve_left hrun
  rw [hrunf]
  have hf := h.ok f (by rw [hsplit]; simp)
  have hnext := h.ok next (by rw [hsplit]; simp)
  have hcount := g.pageCount_lt_two_pow
  have hfin := hf.inside
  have hnin := hnext.inside
  have hgap : k ≤ next.pageIdx - (f.pageIdx + f.pages g) :=
    Nat.le_of_mul_le_mul_right (hcap ▸ hgap) g.pageSize_pos
  have hidx : (newFile (f.pageIdx + f.pages g) len capacity name).pageIdx =
      f.pageIdx + f.pages g := u32_of_lt (by omega)
  have hcapacity : (newFile (f.pageIdx + f.pages g) len capacity name).capacity =
      k * g.pageSize := by
    rw [← hcap]
    exact u32_of_lt (by omega)
  have hpages : (newFile (f.pageIdx + f.pages g) len capacity name).pages g = k := by
    rw [TocFile.pages, hcapacity, Nat.mul_div_cancel _ g.pageSize_pos]
  refine h.insert hsplit ⟨?_, ?_, ?_, ?_, ?_⟩ ?_ ?_ ?_ hroom
  · rw [hpages, hcapacity]
  · rw [hpages]
    exact hk
  · rw [hpages, hidx]
    omega
  · rw [hcapacity]
    exact (Nat.mod_le _ _).trans hlenk
  · exact ⟨name, hname, filename_newFile hname⟩
  · exact hidx.ge
  · rw [Before, hidx, hpages]
    omega
  · intro x hx
    rw [filename_newFile hname]
    exact hfree x hx

/-! ### Changing the list -/

/-- A file that `find_file` finds is not one of the tables. -/
theorem findFile_eq_some {i : ℕ} (h : findFile files name = some i) :
    ∃ j, i = j + 1 ∧ j < (middle files).length := by
  rw [findFile, Option.map_eq_some_iff] at h
  obtain ⟨j, hj, rfl⟩ := h
  exact ⟨j, rfl, (List.findIdx?_eq_some_iff_findIdx_eq.1 hj).1⟩

/-- **`spifs_remove` keeps the list well-formed.** -/
theorem Table.erase (h : Table g m n files) {j : ℕ} (hj : j < (middle files).length) :
    Table g m n (files.eraseIdx (j + 1)) := by
  have hfiles : files.eraseIdx (j + 1) =
      frontToc g m :: ((middle files).eraseIdx j ++ [backToc g m]) := by
    conv_lhs => rw [h.shape]
    rw [List.eraseIdx_cons_succ, List.eraseIdx_append_of_lt_length hj]
  have hsub := List.eraseIdx_sublist files (j + 1)
  refine ⟨?_, fun f hf => h.ok f (hsub.mem hf), h.chain.sublist hsub, ?_,
    hsub.length_le.trans h.count⟩
  · rw [hfiles, middle_cons_append]
  · rw [hfiles, middle_cons_append]
    exact h.names.sublist (List.eraseIdx_sublist _ _)

/-- Replacing an element by one that stands in the same relations. -/
theorem pairwise_set {α : Type*} {R : α → α → Prop} {a b : α} :
    ∀ {l : List α} {i : ℕ}, l[i]? = some a → l.Pairwise R → (∀ x, R a x → R b x) →
      (∀ x, R x a → R x b) → (l.set i b).Pairwise R
  | [], _, h, _, _, _ => by simp at h
  | c :: l, 0, h, hp, hl, _ => by
      obtain rfl : c = a := by simpa using h
      obtain ⟨h₁, h₂⟩ := List.pairwise_cons.1 hp
      exact List.pairwise_cons.2 ⟨fun x hx => hl x (h₁ x hx), h₂⟩
  | c :: l, i + 1, h, hp, hl, hr => by
      obtain ⟨h₁, h₂⟩ := List.pairwise_cons.1 hp
      rw [List.getElem?_cons_succ] at h
      refine List.pairwise_cons.2 ⟨fun x hx => ?_, pairwise_set h h₂ hl hr⟩
      rcases List.mem_or_eq_of_mem_set hx with hx | rfl
      · exact h₁ x hx
      · exact hr c (h₁ a (List.mem_of_getElem? h))

/-- **A new length within the capacity keeps the list well-formed.** -/
theorem Table.withLength (h : Table g m n files) {j len : ℕ} (hj : j < (middle files).length)
    {file : TocFile} (hfile : files[j + 1]? = some file) (hlen : len ≤ file.capacity) :
    Table g m n (files.set (j + 1) (file.withLength len)) := by
  have hfiles : files.set (j + 1) (file.withLength len) =
      frontToc g m :: ((middle files).set j (file.withLength len) ++ [backToc g m]) := by
    conv_lhs => rw [h.shape]
    rw [List.set_cons_succ, List.set_append_left _ _ hj]
  have hmid : (middle files)[j]? = some file := by
    rw [h.shape, List.getElem?_cons_succ, List.getElem?_append_left hj] at hfile
    exact hfile
  refine ⟨?_, fun f hf => ?_, ?_, ?_, ?_⟩
  · rw [hfiles, middle_cons_append]
  · rcases List.mem_or_eq_of_mem_set hf with hf | rfl
    · exact h.ok f hf
    · obtain ⟨h₁, h₂, h₃, -, h₅⟩ := h.ok file (List.mem_of_getElem? hfile)
      exact ⟨h₁, h₂, h₃, (Nat.mod_le _ _).trans hlen, h₅⟩
  · exact pairwise_set hfile h.chain (fun _ h => h) fun _ h => h
  · rw [hfiles, middle_cons_append]
    exact pairwise_set hmid h.names (fun _ h => h) fun _ h => h
  · rw [List.length_set]
    exact h.count

/-! ### A new file system -/

theorem tocEntry_ok (pageIdx : ℕ) (label : CString) (hm : 0 < m) (hsmall : m * g.pageSize < 2 ^ 32)
    (hin : pageIdx + m ≤ g.pageCount) (hlabel : label.bytes.length < maxFilenameLength) :
    FileOk g (tocEntry g m pageIdx label) ∧ (tocEntry g m pageIdx label).pages g = m ∧
      (tocEntry g m pageIdx label).pageIdx = pageIdx := by
  have hcount := g.pageCount_lt_two_pow
  have hcap : (tocEntry g m pageIdx label).capacity = m * g.pageSize := u32_of_lt hsmall
  have hpages : (tocEntry g m pageIdx label).pages g = m := by
    rw [TocFile.pages, hcap, Nat.mul_div_cancel _ g.pageSize_pos]
  have hidx : (tocEntry g m pageIdx label).pageIdx = pageIdx := u32_of_lt (by omega)
  refine ⟨⟨?_, ?_, ?_, le_rfl, label, hlabel, ?_⟩, hpages, hidx⟩
  · rw [hpages, hcap]
  · rwa [hpages]
  · rwa [hpages, hidx]
  · exact List.take_of_length_le (CString.length_padded hlabel.le).le

/-- **The list `spifs_format` starts with** is well-formed. -/
theorem Table.format (hm : 0 < m) (hfits : 2 * m < g.pageCount)
    (hsmall : m * g.pageSize < 2 ^ 32) (hn : 2 ≤ n) :
    Table g m n (spifsAddAscending (spifsAddAscending [] (frontToc g m)) (backToc g m)) := by
  have hcount := g.pageCount_lt_two_pow
  have hsub : sub32 g.pageCount m = g.pageCount - m := sub32_of_le hcount (by omega)
  obtain ⟨hfok, hfpages, hfidx⟩ := tocEntry_ok 0 frontTocLabel hm hsmall (by omega)
    (by decide)
  obtain ⟨hbok, hbpages, hbidx⟩ := tocEntry_ok (sub32 g.pageCount m) backTocLabel hm hsmall
    (by omega) (by decide)
  have hlist : spifsAddAscending (spifsAddAscending [] (frontToc g m)) (backToc g m) =
      frontToc g m :: ([] ++ [backToc g m]) := by
    rw [spifsAddAscending, spifsAddAscending, if_neg (by rw [frontToc, hfidx]; omega)]
    rfl
  rw [hlist]
  refine ⟨by rw [middle_cons_append], fun f hf => ?_, ?_, ?_, by simpa using hn⟩
  · simp only [List.nil_append, List.mem_cons, List.not_mem_nil, or_false] at hf
    rcases hf with rfl | rfl
    · exact hfok
    · exact hbok
  · refine List.pairwise_cons.2 ⟨fun b hb => ?_, List.pairwise_singleton _ _⟩
    obtain rfl := List.mem_singleton.1 hb
    rw [Before, frontToc, backToc, hfidx, hfpages, hbidx]
    omega
  · rw [middle_cons_append]
    exact List.Pairwise.nil

end Spifs
end LittleKernel
