/-
# The boot tables as a store

The tables in memory are read as a store (`Store`): an index for each location, a value
for each name and the lock state.  A name is the bytes of a key up to its NUL, and
`rpmb_write_persistent_value` leaves the last byte of a key alone, so that names are
told apart as long as this byte is 0 in every entry (`KeysEnd`).  Under this condition
filling an entry changes the value of one name (`setEntry_value`).  The empty name is
no name: an entry with an empty key is free.
-/

import LittleKernel.Rpmb.Blocks
import Mathlib.Data.List.Find

namespace LittleKernel
namespace Rpmb

open Memory Bytes

/-! ### Keys -/

/-- Every key has a NUL as its last byte. -/
def KeysEnd (table : ℕ → UInt8) : Prop := ∀ i < persistDataCnt, table (128 * i + 55) = 0

variable {table value : ℕ → UInt8} {name : CString} {i size : ℕ}

theorem keyIs_iff : keyIs table name i = true ↔
    window table (128 * i) (name.bytes.length + 1) = name.bytes ++ [0] := by
  simp [keyIs]

/-- The bytes up to the first NUL of a longer window. -/
theorem takeWhile_of_keyIs (h : keyIs table name i = true) (k : ℕ) :
    (window table (128 * i) (name.bytes.length + 1 + k)).takeWhile (· ≠ 0) = name.bytes := by
  have hall : ∀ b ∈ name.bytes, decide (b ≠ 0) = true := fun b hb => by
    simpa using fun h0 : b = 0 => name.nonul (h0 ▸ hb)
  rw [window_add, keyIs_iff.1 h, List.append_assoc, List.takeWhile_append_of_pos hall]
  simp

/-- An entry has one name. -/
theorem keyIs_unique {n n' : CString} (h : keyIs table n i = true)
    (h' : keyIs table n' i = true) : n = n' := by
  have hn := takeWhile_of_keyIs h n'.bytes.length
  rw [show n.bytes.length + 1 + n'.bytes.length = n'.bytes.length + 1 + n.bytes.length by omega,
    takeWhile_of_keyIs h'] at hn
  cases n
  cases n'
  exact (CString.mk.injEq ..).symm ▸ hn.symm

theorem keyIs_length_le (hend : table (128 * i + 55) = 0) (h : keyIs table name i = true) :
    name.bytes.length ≤ 55 := by
  by_contra hlen
  have h55 := congrArg (fun l : List UInt8 => l[55]?) (keyIs_iff.1 h)
  have hlt : 55 < name.bytes.length := by omega
  simp only [window, List.getElem?_map, List.getElem?_range (show 55 < name.bytes.length + 1 by omega),
    Option.map_some, List.getElem?_append_left hlt, List.getElem?_eq_getElem hlt, hend,
    Option.some.injEq] at h55
  exact name.nonul (h55 ▸ List.getElem_mem hlt)

/-- The name of an entry is found in the bytes of its key. -/
theorem keyIs_congr {t t' : ℕ → UInt8} (hend : t (128 * i + 55) = 0)
    (h : ∀ a, 128 * i ≤ a → a < 128 * i + 56 → t' a = t a) : keyIs t' name i = keyIs t name i := by
  have hend' : t' (128 * i + 55) = 0 := (h _ (by omega) (by omega)).trans hend
  by_cases hlen : name.bytes.length ≤ 55
  · have hw : window t' (128 * i) (name.bytes.length + 1) =
        window t (128 * i) (name.bytes.length + 1) :=
      window_congr fun k hk => h _ (by omega) (by omega)
    rw [keyIs, keyIs, hw]
  · have hf : keyIs t name i = false := by
      by_contra hk
      exact hlen (keyIs_length_le hend (by simpa using hk))
    have hf' : keyIs t' name i = false := by
      by_contra hk
      exact hlen (keyIs_length_le hend' (by simpa using hk))
    rw [hf, hf']

/-! ### Filling an entry -/

/-- Filling an entry changes this entry only, and not the last byte of its key. -/
theorem setEntry_of_not_mem (hlen : name.bytes.length ≤ 55) (hsize : size ≤ 64) {a : ℕ}
    (h : a < 128 * i ∨ 128 * i + 128 ≤ a ∨ a = 128 * i + 55) :
    setEntry table i name size value a = table a := by
  have hp : (name.padded (persistKeyLen - 1)).length = 55 := CString.length_padded hlen
  rw [setEntry, copy_of_not_mem (by omega), store32_of_not_mem (by omega),
    store_of_not_mem (by rw [hp]; omega)]

theorem persistLen_setEntry (hsize : size ≤ 64) :
    persistLen (setEntry table i name size value) i = size := by
  rw [persistLen, setEntry,
    load32_congr fun a ha ha' => copy_of_not_mem (.inl (show a < 128 * i + 64 by omega)),
    load32_store32, Nat.mod_eq_of_lt (by omega)]

theorem value_setEntry :
    window (setEntry table i name size value) (128 * i + 64) size = window value 0 size :=
  window_congr fun k hk => by
    rw [setEntry, copy_of_mem (by omega) (by omega)]
    congr 1
    omega

/-- The entry that was filled has the name. -/
theorem keyIs_setEntry (hlen : name.bytes.length ≤ 55) (hsize : size ≤ 64)
    (hend : table (128 * i + 55) = 0) : keyIs (setEntry table i name size value) name i = true := by
  have hkey : ∀ k < 55, setEntry table i name size value (128 * i + k) =
      store table (128 * i) (name.padded (persistKeyLen - 1)) (128 * i + k) := fun k hk => by
    rw [setEntry, copy_of_not_mem (by omega), store32_of_not_mem (by omega)]
  have hbytes : window (setEntry table i name size value) (128 * i) name.bytes.length =
      name.bytes := by
    rw [window_congr fun k hk => hkey k (by omega)]
    exact window_store table (128 * i) [] name.bytes _
  have hnul : setEntry table i name size value (128 * i + name.bytes.length) = 0 := by
    rcases Nat.eq_or_lt_of_le hlen with h55 | hlt
    · rw [setEntry_of_not_mem hlen hsize (.inr (.inr (by omega))), h55, hend]
    · rw [hkey _ hlt, store, if_pos (by omega), Nat.add_sub_cancel_left, CString.padded,
        List.getElem?_append_right le_rfl, Nat.sub_self,
        List.getElem?_replicate_of_lt (show 0 < persistKeyLen - 1 - name.bytes.length from
          Nat.sub_pos_of_lt hlt), Option.getD_some]
  rw [keyIs_iff, window_add, hbytes]
  simp [window, hnul]

/-! ### The store -/

/-- What the tables hold: an index for each location, the length and the first 64 bytes of
a value for each name, and the lock state. -/
structure Store where
  index : ℕ → ℕ
  value : CString → Option (ℕ × List UInt8)
  lock : ℕ

/-- The value of a name in a table of persistent data. -/
def valueOf (table : ℕ → UInt8) (name : CString) : Option (ℕ × List UInt8) :=
  if name.bytes = [] then none
  else (rpmbSearchPersistentKey table name).map fun i =>
    (persistLen table i, window table (128 * i + 64) (min (persistLen table i) persistValueLen))

/-- The store that the tables in memory are. -/
def Mem.store (m : Mem) : Store where
  index loc := load64 m.rollbackIndex (8 * loc)
  value := valueOf m.persistentData
  lock := m.lockState

theorem search_eq_some : rpmbSearchPersistentKey table name = some i ↔
      keyIs table name i = true ∧ i < persistDataCnt ∧ ∀ j < i, keyIs table name j = false := by
  rw [rpmbSearchPersistentKey, List.find?_range_eq_some]
  simp

theorem search_eq_none :
    rpmbSearchPersistentKey table name = none ↔ ∀ i < persistDataCnt, keyIs table name i = false := by
  simp [rpmbSearchPersistentKey]

/-- The entry for a name has this name already, or it is free and no entry has the name. -/
theorem entryFor_cases (h : entryFor table name = some i) : i < persistDataCnt ∧
      (rpmbSearchPersistentKey table name = some i ∨
        rpmbSearchPersistentKey table name = none ∧ table (128 * i) = 0) := by
  rw [entryFor] at h
  cases hs : rpmbSearchPersistentKey table name with
  | some j =>
    rw [hs, Option.some_or, Option.some.injEq] at h
    subst h
    exact ⟨(search_eq_some.1 hs).2.1, .inl rfl⟩
  | none =>
    rw [hs, Option.none_or, rpmbGetEmptyPersistentData, List.find?_range_eq_some] at h
    exact ⟨List.mem_range.1 h.2.1, .inr ⟨rfl, by simpa using h.1⟩⟩

theorem keyIs_of_free (h : table (128 * i) = 0)
    (hne : name.bytes ≠ []) : keyIs table name i = false := by
  by_contra hk
  have hpos : 0 < name.bytes.length := List.length_pos_iff.2 hne
  have h0 := congrArg (fun l : List UInt8 => l[0]?) (keyIs_iff.1 (by simpa using hk))
  simp only [window, List.getElem?_map, List.getElem?_range (Nat.succ_pos _), Option.map_some,
    List.getElem?_append_left hpos, List.getElem?_eq_getElem hpos, Nat.add_zero, h,
    Option.some.injEq] at h0
  exact name.nonul (h0 ▸ List.getElem_mem hpos)

/-- **Filling the entry for a name sets the value of this name** and of no other. -/
theorem setEntry_value
    (hends : KeysEnd table) (hne : name.bytes ≠ []) (hi : entryFor table name = some i)
    (hlen : name.bytes.length ≤ 55) (hsize : size ≤ 64) :
    valueOf (setEntry table i name size value) =
      Function.update (valueOf table) name (some (size, window value 0 size)) := by
  obtain ⟨hlt, hcases⟩ := entryFor_cases hi
  have hkey : keyIs (setEntry table i name size value) name i = true :=
    keyIs_setEntry hlen hsize (hends i hlt)
  have hother : ∀ n : CString, ∀ j < persistDataCnt, j ≠ i →
      keyIs (setEntry table i name size value) n j = keyIs table n j := fun n j hj hji =>
    keyIs_congr (hends j hj) fun a ha ha' => setEntry_of_not_mem hlen hsize (by omega)
  funext n
  rcases eq_or_ne n name with rfl | hn
  · -- the search ends at `i`: no entry before it has the name, before or after
    have hsearch : rpmbSearchPersistentKey (setEntry table i n size value) n = some i := by
      refine search_eq_some.2 ⟨hkey, hlt, fun j hj => ?_⟩
      rw [hother n j (by omega) (by omega)]
      rcases hcases with hs | ⟨hs, -⟩
      · exact (search_eq_some.1 hs).2.2 j hj
      · exact search_eq_none.1 hs j (by omega)
    rw [valueOf, if_neg hne, hsearch, Function.update_self, Option.map_some,
      persistLen_setEntry hsize, show min size persistValueLen = size from Nat.min_eq_left hsize,
      value_setEntry]
  · rw [Function.update_of_ne hn]
    by_cases hnil : n.bytes = []
    · rw [valueOf, valueOf, if_pos hnil, if_pos hnil]
    · -- entry `i` has another name afterwards and had another name, or none, before
      have hafter : keyIs (setEntry table i name size value) n i = false := by
        by_contra hk
        exact hn (keyIs_unique (by simpa using hk) hkey)
      have hbefore : keyIs table n i = false := by
        rcases hcases with hs | ⟨-, hfree⟩
        · by_contra hk
          exact hn (keyIs_unique (by simpa using hk) (search_eq_some.1 hs).1)
        · exact keyIs_of_free hfree hnil
      have hsearch : rpmbSearchPersistentKey (setEntry table i name size value) n =
          rpmbSearchPersistentKey table n := by
        refine List.find?_congr fun j hj => ?_
        rcases eq_or_ne j i with rfl | hji
        · rw [hafter, hbefore]
        · exact hother n j (List.mem_range.1 hj) hji
      simp only [valueOf, if_neg hnil, hsearch]
      cases hs : rpmbSearchPersistentKey table n with
      | none => simp only [Option.map_none]
      | some j =>
        have hji : j ≠ i := fun hji => by
          have := (search_eq_some.1 hs).1
          rw [hji, hbefore] at this
          exact Bool.false_ne_true this
        have hentry : ∀ a, 128 * j ≤ a → a < 128 * j + 128 →
            setEntry table i name size value a = table a := fun a ha ha' =>
          setEntry_of_not_mem hlen hsize (by omega)
        have hl : persistLen (setEntry table i name size value) j = persistLen table j :=
          load32_congr fun a ha ha' => hentry a (by omega) (by omega)
        have hmin : min (persistLen table j) persistValueLen ≤ 64 := Nat.min_le_right _ _
        have hw : window (setEntry table i name size value) (128 * j + 64)
            (min (persistLen table j) persistValueLen) =
              window table (128 * j + 64) (min (persistLen table j) persistValueLen) :=
          window_congr fun k hk => hentry _ (by omega) (by omega)
        simp only [Option.map_some, hl, hw]

end Rpmb
end LittleKernel
