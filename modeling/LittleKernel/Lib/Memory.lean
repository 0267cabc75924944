/-
# Memory as a function of its addresses

A region of memory is a function from offsets to cells.  `copy` is `memcpy`
into such a region, `window` the list of the cells of a range, and `ring` the
list of the cells met by walking a circular region of `n` cells from `tail`.

The three `ring_` lemmas are what a circular buffer needs: copying a
contiguous run behind the occupied cells appends to the walk, the occupied
cells up to the end of the region are a window, and advancing the start drops
from the front.
-/

import Mathlib.Data.List.Basic
import Mathlib.Tactic.SplitIfs

namespace Memory

variable {α : Type*}

/-- `memcpy(dst + off, src + pos, len)`. -/
def copy (dst : ℕ → α) (off : ℕ) (src : ℕ → α) (pos len : ℕ) : ℕ → α := fun i =>
  if off ≤ i ∧ i < off + len then src (pos + (i - off)) else dst i

theorem copy_of_mem {dst src : ℕ → α} {off pos len i : ℕ} (h : off ≤ i) (h' : i < off + len) :
    copy dst off src pos len i = src (pos + (i - off)) := by
  simp [copy, h, h']

theorem copy_of_not_mem {dst src : ℕ → α} {off pos len i : ℕ} (h : i < off ∨ off + len ≤ i) :
    copy dst off src pos len i = dst i := by
  rw [copy, if_neg (by omega)]

@[simp] theorem copy_zero (dst src : ℕ → α) (off pos : ℕ) : copy dst off src pos 0 = dst := by
  funext i
  exact copy_of_not_mem (by omega)

/-- A copy depends on what it reads only. -/
theorem copy_congr {dst src src' : ℕ → α} {off pos pos' len : ℕ}
    (h : ∀ i < len, src (pos + i) = src' (pos' + i)) :
    copy dst off src pos len = copy dst off src' pos' len := by
  funext i
  by_cases hi : off ≤ i ∧ i < off + len
  · rw [copy_of_mem hi.1 hi.2, copy_of_mem hi.1 hi.2, h _ (by omega)]
  · rw [copy_of_not_mem (by omega), copy_of_not_mem (by omega)]

theorem copy_append (dst src : ℕ → α) (off pos m n : ℕ) :
    copy (copy dst off src pos m) (off + m) src (pos + m) n = copy dst off src pos (m + n) := by
  funext i
  by_cases h₂ : off + m ≤ i ∧ i < off + m + n
  · rw [copy_of_mem h₂.1 h₂.2, copy_of_mem (by omega) (by omega)]
    congr 1
    omega
  · rw [copy_of_not_mem (by omega)]
    by_cases h₁ : off ≤ i ∧ i < off + m
    · rw [copy_of_mem h₁.1 h₁.2, copy_of_mem h₁.1 (by omega)]
    · rw [copy_of_not_mem (by omega), copy_of_not_mem (by omega)]

/-- The `len` cells from `pos` on. -/
def window (src : ℕ → α) (pos len : ℕ) : List α := (List.range len).map fun i => src (pos + i)

@[simp] theorem window_zero (src : ℕ → α) (pos : ℕ) : window src pos 0 = [] := rfl

@[simp] theorem length_window (src : ℕ → α) (pos len : ℕ) : (window src pos len).length = len := by
  simp [window]

theorem window_add (src : ℕ → α) (pos m n : ℕ) :
    window src pos (m + n) = window src pos m ++ window src (pos + m) n := by
  simp [window, List.range_add, Function.comp_def, Nat.add_assoc]

theorem window_congr {f g : ℕ → α} {p q len : ℕ} (h : ∀ i < len, f (p + i) = g (q + i)) :
    window f p len = window g q len :=
  List.map_congr_left fun i hi => h i (List.mem_range.1 hi)

/-- The cells of `l` from `off` on, the rest of `dst` unchanged. -/
def store (dst : ℕ → α) (off : ℕ) (l : List α) : ℕ → α := fun i =>
  if off ≤ i then (l[i - off]?).getD (dst i) else dst i

@[simp] theorem store_nil (dst : ℕ → α) (off : ℕ) : store dst off [] = dst := by
  funext i
  simp [store]

/-- `memcpy` stores the window it reads. -/
theorem copy_eq_store (dst src : ℕ → α) (off pos len : ℕ) :
    copy dst off src pos len = store dst off (window src pos len) := by
  funext i
  by_cases h : off ≤ i
  · by_cases h' : i < off + len
    · simp [copy, store, window, h, h', show i - off < len by omega]
    · simp [copy, store, window, h, h', show len ≤ i - off by omega]
  · simp [copy, store, h]

/-- Storing one list behind another stores both. -/
theorem store_append (dst : ℕ → α) (off : ℕ) (l m : List α) :
    store (store dst off l) (off + l.length) m = store dst off (l ++ m) := by
  funext i
  rcases Nat.lt_or_ge i (off + l.length) with h | h
  · by_cases h' : off ≤ i
    · simp [store, h', Nat.not_le.2 h, List.getElem?_append_left (show i - off < l.length by omega)]
    · simp [store, h', Nat.not_le.2 h]
  · have hl : l.length ≤ i - off := by omega
    simp [store, h, show off ≤ i by omega, List.getElem?_append_right hl, Nat.sub_sub,
      show l[i - off]? = none by simp; omega]

/-- Storing over what was stored before. -/
theorem store_store (m : ℕ → α) (p : ℕ) (l k : List α) :
    store (store m p l) p k = store m p (k ++ l.drop k.length) := by
  funext i
  by_cases hp : p ≤ i
  · rw [store, if_pos hp, store, if_pos hp, store, if_pos hp]
    rcases Nat.lt_or_ge (i - p) k.length with hi | hi
    · rw [List.getElem?_append_left hi, List.getElem?_eq_getElem hi]
      rfl
    · rw [List.getElem?_append_right hi, List.getElem?_eq_none hi, List.getElem?_drop,
        Nat.add_sub_cancel' hi]
      rfl
  · rw [store, if_neg hp, store, if_neg hp, store, if_neg hp]

/-- A part of what was stored is read back. -/
theorem window_store (dst : ℕ → α) (off : ℕ) (k l m : List α) :
    window (store dst off (k ++ (l ++ m))) (off + k.length) l.length = l := by
  refine List.ext_getElem (by simp) fun i _ h => ?_
  simp only [window, List.getElem_map, List.getElem_range, store]
  rw [if_pos (by omega), show off + k.length + i - off = k.length + i by omega,
    List.getElem?_append_right (by omega), Nat.add_sub_cancel_left, List.getElem?_append_left h,
    List.getElem?_eq_getElem h, Option.getD_some]

/-- A window without its first cells. -/
theorem drop_window (src : ℕ → α) (pos : ℕ) {len k : ℕ} (hk : k ≤ len) :
    (window src pos len).drop k = window src (pos + k) (len - k) := by
  obtain ⟨d, rfl⟩ := Nat.exists_eq_add_of_le hk
  rw [window_add, List.drop_left' (length_window _ _ _), Nat.add_sub_cancel_left]

theorem take_window (src : ℕ → α) (pos : ℕ) {len k : ℕ} (hk : k ≤ len) :
    (window src pos len).take k = window src pos k := by
  obtain ⟨d, rfl⟩ := Nat.exists_eq_add_of_le hk
  rw [window_add, List.take_left' (length_window _ _ _)]

/-- Memory that holds one list behind another. -/
theorem window_eq_append {src : ℕ → α} {pos : ℕ} {l m : List α} :
    window src pos (l ++ m).length = l ++ m ↔
      window src pos l.length = l ∧ window src (pos + l.length) m.length = m := by
  rw [List.length_append, window_add]
  constructor
  · intro h
    exact List.append_inj h (length_window _ _ _)
  · rintro ⟨hl, hm⟩
    rw [hl, hm]

theorem window_copy (dst src : ℕ → α) (off pos len : ℕ) :
    window (copy dst off src pos len) off len = window src pos len :=
  window_congr fun i hi => by rw [copy_of_mem (by omega) (by omega), Nat.add_sub_cancel_left]

/-- Storing a list behind a window extends it. -/
theorem window_store_end (dst : ℕ → α) (len : ℕ) (l : List α) :
    window (store dst len l) 0 (len + l.length) = window dst 0 len ++ l := by
  rw [window_add]
  congr 1
  · exact window_congr fun i hi => by simp [store, Nat.not_le.2 hi]
  · simpa using window_store dst len [] l []

/-! ### Circular regions -/

theorem mod_of_lt_two_mul {a n : ℕ} (h : a < 2 * n) : a % n = if a < n then a else a - n := by
  split_ifs with hn
  · exact Nat.mod_eq_of_lt hn
  · rw [Nat.mod_eq_sub_mod (by omega), Nat.mod_eq_of_lt (by omega)]

/-- The `used` cells from `tail` on, wrapping at `n`. -/
def ring (buf : ℕ → α) (n tail used : ℕ) : List α :=
  (List.range used).map fun i => buf ((tail + i) % n)

@[simp] theorem length_ring (buf : ℕ → α) (n tail used : ℕ) :
    (ring buf n tail used).length = used := by
  simp [ring]

@[simp] theorem ring_zero (buf : ℕ → α) (n tail : ℕ) : ring buf n tail 0 = [] := rfl

/-- **Copying behind the occupied cells appends.**  The free cells from
`(tail + used) % n` on take `w` new cells without wrapping, and the occupied
ones keep theirs. -/
theorem ring_copy (buf src : ℕ → α) {n tail used w : ℕ} (pos : ℕ) (ht : tail < n) (hu : used + w ≤ n)
    (hw : (tail + used) % n + w ≤ n) :
    ring (copy buf ((tail + used) % n) src pos w) n tail (used + w)
      = ring buf n tail used ++ window src pos w := by
  have hh := mod_of_lt_two_mul (show tail + used < 2 * n by omega)
  have hold : ∀ i < used,
      copy buf ((tail + used) % n) src pos w ((tail + i) % n) = buf ((tail + i) % n) := by
    intro i hi
    have hi' := mod_of_lt_two_mul (show tail + i < 2 * n by omega)
    rw [copy_of_not_mem]
    split_ifs at hh hi' <;> omega
  have hnew : ∀ i < w,
      copy buf ((tail + used) % n) src pos w ((tail + (used + i)) % n) = src (pos + i) := by
    intro i hi
    have hi' := mod_of_lt_two_mul (show tail + (used + i) < 2 * n by omega)
    have hpos : (tail + (used + i)) % n = (tail + used) % n + i := by
      split_ifs at hh hi' <;> omega
    rw [hpos, copy_of_mem (by omega) (by omega), Nat.add_sub_cancel_left]
  rw [ring, List.range_add, List.map_append, ring, window, List.map_map]
  congr 1
  · exact List.map_congr_left fun i hi => hold i (List.mem_range.1 hi)
  · exact List.map_congr_left fun i hi => hnew i (List.mem_range.1 hi)

/-- The first occupied cells, up to the end of the region, are contiguous. -/
theorem window_eq_take_ring (buf : ℕ → α) {n tail used r : ℕ} (hr : r ≤ used)
    (hw : tail + r ≤ n) : window buf tail r = (ring buf n tail used).take r := by
  obtain ⟨d, rfl⟩ := Nat.exists_eq_add_of_le hr
  rw [ring, List.range_add, List.map_append, List.take_left' (by simp)]
  exact List.map_congr_left fun i hi => by
    rw [Nat.mod_eq_of_lt (by have := List.mem_range.1 hi; omega)]

/-- Advancing the start by `r` drops the first `r` cells. -/
theorem ring_advance (buf : ℕ → α) (n tail used r : ℕ) (hr : r ≤ used) :
    ring buf n ((tail + r) % n) (used - r) = (ring buf n tail used).drop r := by
  obtain ⟨d, rfl⟩ := Nat.exists_eq_add_of_le hr
  rw [ring, ring, List.range_add, List.map_append, List.drop_left' (by simp), List.map_map,
    Nat.add_sub_cancel_left]
  exact List.map_congr_left fun i _ => by simp [Nat.add_assoc]

end Memory
