/-
# Lists with unique keys

A table kept as a list, whose entries have different keys: searching for a key
finds the entry that has it, wherever it stands.
-/

import Mathlib.Data.List.Nodup

namespace Keyed

variable {α β : Type*} {k : α → β} {l : List α} {b : β} {x y : α}

theorem eq_of_key (h : (l.map k).Nodup) (hx : x ∈ l) (hy : y ∈ l) (he : k x = k y) : x = y :=
  List.inj_on_of_nodup_map h hx hy he

/-- A new key keeps the keys unique. -/
theorem nodup_concat (h : (l.map k).Nodup) (hx : ∀ y ∈ l, k y ≠ k x) :
    ((l ++ [x]).map k).Nodup := by
  rw [List.map_append, List.nodup_append]
  refine ⟨h, by simp, fun a ha c hc => ?_⟩
  obtain ⟨y, hy, rfl⟩ := List.mem_map.1 ha
  obtain rfl : c = k x := by simpa using hc
  exact hx y hy

theorem nodup_filter (h : (l.map k).Nodup) (p : α → Bool) : ((l.filter p).map k).Nodup :=
  h.sublist (List.filter_sublist.map k)

/-- Entries that are changed but keep their keys. -/
theorem map_key {f : α → α} (h : ∀ x ∈ l, k (f x) = k x) : (l.map f).map k = l.map k := by
  rw [List.map_map]
  exact List.map_congr_left h

variable [DecidableEq β]

/-- What is left when the entry with a key is removed. -/
theorem mem_eraseP (h : (l.map k).Nodup) (hx : x ∈ l.eraseP fun y => k y = b) :
    x ∈ l ∧ k x ≠ b := by
  induction l with
  | nil => simp at hx
  | cons a l ih =>
    rw [List.map_cons, List.nodup_cons] at h
    by_cases ha : k a = b
    · rw [List.eraseP_cons_of_pos (by simpa using ha)] at hx
      refine ⟨List.mem_cons_of_mem _ hx, fun he => h.1 ?_⟩
      rw [ha, ← he]
      exact List.mem_map_of_mem hx
    · rw [List.eraseP_cons_of_neg (by simpa using ha)] at hx
      rcases List.mem_cons.1 hx with rfl | hx
      · exact ⟨List.mem_cons_self, ha⟩
      · exact ⟨List.mem_cons_of_mem _ (ih h.2 hx).1, (ih h.2 hx).2⟩

/-- What is found has the key. -/
theorem of_find (h : l.find? (fun x => k x = b) = some x) : x ∈ l ∧ k x = b :=
  ⟨List.mem_of_find?_eq_some h, by simpa using List.find?_some h⟩

/-- **Searching for a key.** -/
theorem find_iff (h : (l.map k).Nodup) :
    l.find? (fun x => k x = b) = some x ↔ x ∈ l ∧ k x = b := by
  refine ⟨of_find, fun ⟨hx, hb⟩ => ?_⟩
  cases hf : l.find? (fun x => k x = b) with
  | none =>
    rw [List.find?_eq_none] at hf
    exact absurd (by simpa using hb) (hf x hx)
  | some y =>
    obtain ⟨hy, hyb⟩ := of_find hf
    rw [eq_of_key h hx hy (hb.trans hyb.symm)]

theorem find_eq_none_iff : l.find? (fun x => k x = b) = none ↔ ∀ x ∈ l, k x ≠ b := by
  rw [List.find?_eq_none]
  simp

/-- Reordering a list does not change what a search finds. -/
theorem find_perm {l' : List α} (h : (l.map k).Nodup) (hp : l'.Perm l) :
    l'.find? (fun x => k x = b) = l.find? (fun x => k x = b) := by
  have h' : (l'.map k).Nodup := (hp.map k).nodup_iff.2 h
  refine Option.ext fun x => ?_
  rw [find_iff h', find_iff h, hp.mem_iff]

theorem find_isSome_iff : (l.find? (fun x => k x = b)).isSome ↔ ∃ x ∈ l, k x = b := by
  rw [List.find?_isSome]
  simp

end Keyed
