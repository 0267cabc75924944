/-
# Bytes

Little-endian fields of on-disk structures and NUL-terminated strings.
-/

import Mathlib.Tactic.Ring
import Mathlib.Data.List.GetD
import Mathlib.Data.List.TakeWhile

namespace Bytes

/-- The `n` little-endian bytes of `x`. -/
def le : ℕ → ℕ → List UInt8
  | 0, _ => []
  | n + 1, x => UInt8.ofNat x :: le n (x / 256)

/-- The number that little-endian bytes spell. -/
def ofLe : List UInt8 → ℕ
  | [] => 0
  | b :: bs => b.toNat + 256 * ofLe bs

@[simp] theorem length_le (n x : ℕ) : (le n x).length = n := by
  induction n generalizing x with
  | zero => rfl
  | succ n ih => simp [le, ih]

theorem ofLe_le (n x : ℕ) : ofLe (le n x) = x % 256 ^ n := by
  induction n generalizing x with
  | zero => simp [le, ofLe, Nat.mod_one]
  | succ n ih =>
    rw [le, ofLe, ih, pow_succ, Nat.mul_comm (256 ^ n), Nat.mod_mul]
    simp

theorem ofLe_le_of_lt {n x : ℕ} (h : x < 256 ^ n) : ofLe (le n x) = x := by
  rw [ofLe_le, Nat.mod_eq_of_lt h]

theorem ofLe_lt (l : List UInt8) : ofLe l < 256 ^ l.length := by
  induction l with
  | nil => simp [ofLe]
  | cons b bs ih =>
    have hb : b.toNat < 256 := b.toNat_lt
    rw [ofLe, List.length_cons, pow_succ]
    omega

theorem ofLe_append (l m : List UInt8) : ofLe (l ++ m) = ofLe l + 256 ^ l.length * ofLe m := by
  induction l with
  | nil => simp [ofLe]
  | cons b l ih =>
    rw [List.cons_append, ofLe, ih, ofLe, List.length_cons, pow_succ]
    ring

/-- Bytes are those of the number they spell. -/
theorem le_ofLe (l : List UInt8) : le l.length (ofLe l) = l := by
  induction l with
  | nil => rfl
  | cons b l ih =>
    have hb := b.toNat_lt
    rw [List.length_cons, le, ofLe, show (b.toNat + 256 * ofLe l) / 256 = ofLe l by omega, ih]
    congr 1
    exact UInt8.toNat_inj.1 (by rw [UInt8.toNat_ofNat']; omega)

/-- The `n` bytes from `i` on, zeros where `l` has ended. -/
def field (l : List UInt8) (i n : ℕ) : List UInt8 := (List.range n).map fun j => l.getD (i + j) 0

@[simp] theorem length_field (l : List UInt8) (i n : ℕ) : (field l i n).length = n := by
  simp [field]

theorem ofLe_field_lt (l : List UInt8) (i n : ℕ) : ofLe (field l i n) < 256 ^ n := by
  simpa using ofLe_lt (field l i n)

/-- A field that stands between `k` and `m` is read back. -/
theorem field_append (k l m : List UInt8) : field (k ++ (l ++ m)) k.length l.length = l := by
  refine List.ext_getElem (by simp) fun j h _ => ?_
  have hj : j < l.length := by simpa using h
  simp only [field, List.getElem_map, List.getElem_range]
  rw [List.getD_append_right _ _ _ _ (by omega), Nat.add_sub_cancel_left,
    List.getD_append _ _ _ _ hj, List.getD_eq_getElem]

/-- What stands behind a prefix is read from the rest. -/
theorem field_append_right (k l : List UInt8) (off n : ℕ) :
    field (k ++ l) (k.length + off) n = field l off n := by
  unfold field
  refine List.map_congr_left fun j _ => ?_
  rw [List.getD_append_right _ _ _ _ (by omega),
    show k.length + off + j - k.length = off + j by omega]

/-- What stands in a prefix is read from it. -/
theorem field_append_left {k : List UInt8} (l : List UInt8) {off n : ℕ}
    (h : off + n ≤ k.length) : field (k ++ l) off n = field k off n := by
  unfold field
  refine List.map_congr_left fun j hj => ?_
  have := List.mem_range.mp hj
  rw [List.getD_append _ _ _ _ (by omega)]

/-- Each of a row of equal blocks is read as the block. -/
theorem field_flatten_replicate {b : List UInt8} {n m i : ℕ} (hi : i < m) (hn : n ≤ b.length) :
    field (List.replicate m b).flatten (b.length * i) n = field b 0 n := by
  induction i generalizing m with
  | zero =>
    obtain ⟨m, rfl⟩ : ∃ k, m = k + 1 := ⟨m - 1, by omega⟩
    rw [List.replicate_succ, List.flatten_cons, Nat.mul_zero]
    exact field_append_left _ (by omega)
  | succ i ih =>
    obtain ⟨m, rfl⟩ : ∃ k, m = k + 1 := ⟨m - 1, by omega⟩
    rw [List.replicate_succ, List.flatten_cons, Nat.mul_succ, Nat.add_comm (b.length * i),
      field_append_right, ih (by omega)]

/-- A C string: its bytes without the NUL that ends it. -/
structure CString where
  bytes : List UInt8
  nonul : 0 ∉ bytes
  deriving DecidableEq

/-- The C string that starts a byte array. -/
def CString.ofBytes (l : List UInt8) : CString where
  bytes := l.takeWhile (· ≠ 0)
  nonul h := by simpa using List.mem_takeWhile_imp h

/-- `s` in a zeroed array of `n` bytes, at least one of them left for the NUL. -/
def CString.padded (s : CString) (n : ℕ) : List UInt8 :=
  s.bytes ++ List.replicate (n - s.bytes.length) 0

theorem CString.length_padded {s : CString} {n : ℕ} (h : s.bytes.length ≤ n) :
    (s.padded n).length = n := by
  simp [CString.padded]
  omega

theorem CString.length_take_padded (s : CString) (n : ℕ) :
    ((s.padded n).take n).length = n := by
  simp [CString.padded]
  omega

theorem nonul_letter : (0 : UInt8) ∉ [0x61] := by decide

/-- The NUL behind a string ends it. -/
theorem CString.ofBytes_append (s : CString) (l : List UInt8) :
    CString.ofBytes (s.bytes ++ 0 :: l) = s := by
  obtain ⟨bytes, nonul⟩ := s
  have hall : ∀ b ∈ bytes, (decide (b ≠ 0)) = true := fun b hb => by
    simpa using fun h0 : b = 0 => nonul (h0 ▸ hb)
  simp only [CString.ofBytes, CString.mk.injEq]
  rw [List.takeWhile_append_of_pos hall]
  simp

/-- What was copied into a long enough array is read back. -/
theorem CString.ofBytes_padded {s : CString} {n : ℕ} (h : s.bytes.length < n) :
    CString.ofBytes (s.padded n) = s := by
  obtain ⟨k, hk⟩ : ∃ k, n - s.bytes.length = k + 1 := ⟨n - s.bytes.length - 1, by omega⟩
  rw [CString.padded, hk, List.replicate_succ, CString.ofBytes_append]

end Bytes
