/-
# Fields of a byte-addressed memory

A `uint32_t` at an address of a memory of bytes, little-endian: what was stored is
loaded, and a store somewhere else changes nothing.  `byteSum` adds up a range of bytes.
-/

import LittleKernel.Lib.Memory
import LittleKernel.Lib.Bytes

namespace Memory

/-- The `uint32_t` at `a`. -/
def load32 (m : ℕ → UInt8) (a : ℕ) : ℕ := Bytes.ofLe (window m a 4)

/-- `v` stored as a `uint32_t` at `a`. -/
def store32 (m : ℕ → UInt8) (a v : ℕ) : ℕ → UInt8 := store m a (Bytes.le 4 v)

theorem store_of_not_mem {α : Type*} {dst : ℕ → α} {off i : ℕ} {l : List α}
    (h : i < off ∨ off + l.length ≤ i) : store dst off l i = dst i := by
  unfold store
  split_ifs with ho
  · rw [List.getElem?_eq_none (by omega), Option.getD_none]
  · rfl

variable {m : ℕ → UInt8}

theorem store32_of_not_mem {a v i : ℕ} (h : i < a ∨ a + 4 ≤ i) :
    store32 m a v i = m i :=
  store_of_not_mem (by simpa using h)

theorem load32_lt (m : ℕ → UInt8) (a : ℕ) : load32 m a < 2 ^ 32 := by
  have := Bytes.ofLe_lt (window m a 4)
  simpa [load32] using this

theorem load32_congr {m m' : ℕ → UInt8} {a : ℕ} (h : ∀ i, a ≤ i → i < a + 4 → m' i = m i) :
    load32 m' a = load32 m a := by
  rw [load32, load32, window_congr fun i hi => h (a + i) (by omega) (by omega)]

/-- A word whose bytes are there is read. -/
theorem load32_of_window {a v : ℕ} (h : window m a 4 = Bytes.le 4 v)
    (hv : v < 2 ^ 32) : load32 m a = v := by
  rw [load32, h, Bytes.ofLe_le_of_lt (by simpa using hv)]

@[simp] theorem load32_store32 (m : ℕ → UInt8) (a v : ℕ) :
    load32 (store32 m a v) a = v % 2 ^ 32 := by
  have h := window_store m a [] (Bytes.le 4 v) []
  simp only [List.nil_append, List.append_nil, List.length_nil, Nat.add_zero,
    Bytes.length_le] at h
  rw [load32, store32, h, Bytes.ofLe_le]
  norm_num

theorem load32_store32_of_ne {a b v : ℕ} (h : a + 4 ≤ b ∨ b + 4 ≤ a) :
    load32 (store32 m a v) b = load32 m b :=
  load32_congr fun i hi hi' => store32_of_not_mem (by omega)

/-- The `uint64_t` at `a`. -/
def load64 (m : ℕ → UInt8) (a : ℕ) : ℕ := Bytes.ofLe (window m a 8)

/-- `v` stored as a `uint64_t` at `a`. -/
def store64 (m : ℕ → UInt8) (a v : ℕ) : ℕ → UInt8 := store m a (Bytes.le 8 v)

theorem store64_of_not_mem {a v i : ℕ} (h : i < a ∨ a + 8 ≤ i) :
    store64 m a v i = m i :=
  store_of_not_mem (by simpa using h)

theorem load64_congr {m m' : ℕ → UInt8} {a : ℕ} (h : ∀ i, a ≤ i → i < a + 8 → m' i = m i) :
    load64 m' a = load64 m a := by
  rw [load64, load64, window_congr fun i hi => h (a + i) (by omega) (by omega)]

@[simp] theorem load64_store64 (m : ℕ → UInt8) (a v : ℕ) :
    load64 (store64 m a v) a = v % 2 ^ 64 := by
  have h := window_store m a [] (Bytes.le 8 v) []
  simp only [List.nil_append, List.append_nil, List.length_nil, Nat.add_zero,
    Bytes.length_le] at h
  rw [load64, store64, h, Bytes.ofLe_le]
  norm_num

theorem load64_store64_of_ne {a b v : ℕ} (h : a + 8 ≤ b ∨ b + 8 ≤ a) :
    load64 (store64 m a v) b = load64 m b :=
  load64_congr fun i hi hi' => store64_of_not_mem (by omega)

/-! ### Memories that agree on a range -/

/-- The two memories hold the same in `[lo, hi)`. -/
def AgreeOn {α : Type*} (lo hi : ℕ) (f g : ℕ → α) : Prop := ∀ i, lo ≤ i → i < hi → f i = g i

section AgreeOn

variable {lo hi : ℕ}

theorem AgreeOn.symm {α : Type*} {f g : ℕ → α} (h : AgreeOn lo hi f g) : AgreeOn lo hi g f :=
  fun i hl hh => (h i hl hh).symm

theorem AgreeOn.trans {α : Type*} {f g k : ℕ → α} (h : AgreeOn lo hi f g)
    (h' : AgreeOn lo hi g k) : AgreeOn lo hi f k :=
  fun i hl hh => (h i hl hh).trans (h' i hl hh)

theorem AgreeOn.window {α : Type*} {f g : ℕ → α} (h : AgreeOn lo hi f g) {a n : ℕ} (hl : lo ≤ a)
    (hh : a + n ≤ hi) : window f a n = window g a n :=
  window_congr fun i hi => h _ (by omega) (by omega)

theorem AgreeOn.store {α : Type*} {f g : ℕ → α} (h : AgreeOn lo hi f g) (a : ℕ) (l : List α) :
    AgreeOn lo hi (store f a l) (store g a l) := fun i hl hh => by
  simp only [Memory.store, h i hl hh]

variable {f g : ℕ → UInt8}

variable (h : AgreeOn lo hi f g)
include h

theorem AgreeOn.load32 {a : ℕ} (hl : lo ≤ a) (hh : a + 4 ≤ hi) :
    load32 f a = load32 g a :=
  load32_congr fun i _ _ => h i (by omega) (by omega)

theorem AgreeOn.load64 {a : ℕ} (hl : lo ≤ a) (hh : a + 8 ≤ hi) :
    load64 f a = load64 g a :=
  load64_congr fun i _ _ => h i (by omega) (by omega)

theorem AgreeOn.store32 (a v : ℕ) :
    AgreeOn lo hi (store32 f a v) (store32 g a v) :=
  h.store a _

theorem AgreeOn.store64 (a v : ℕ) :
    AgreeOn lo hi (store64 f a v) (store64 g a v) :=
  h.store a _

end AgreeOn

/-- The sum of the `n` bytes from `a` on. -/
def byteSum (m : ℕ → UInt8) (a n : ℕ) : ℕ := ((window m a n).map UInt8.toNat).sum

theorem byteSum_succ (m : ℕ → UInt8) (a n : ℕ) :
    byteSum m a (n + 1) = byteSum m a n + (m (a + n)).toNat := by
  simp [byteSum, window, List.range_succ]

theorem byteSum_congr {m m' : ℕ → UInt8} {a n : ℕ} (h : ∀ i, a ≤ i → i < a + n → m' i = m i) :
    byteSum m' a n = byteSum m a n := by
  rw [byteSum, byteSum, window_congr fun i hi => h (a + i) (by omega) (by omega)]

theorem byteSum_store32_of_ne {a b v n : ℕ} (h : a + 4 ≤ b ∨ b + n ≤ a) :
    byteSum (store32 m a v) b n = byteSum m b n :=
  byteSum_congr fun i hi hi' => store32_of_not_mem (by omega)

/-- One byte of a range is replaced. -/
theorem byteSum_store (m : ℕ → UInt8) (c : UInt8) {a i n : ℕ} (hi : i < n) :
    byteSum (store m (a + i) [c]) a n + (m (a + i)).toNat = byteSum m a n + c.toNat := by
  induction n with
  | zero => omega
  | succ n ih =>
    rw [byteSum_succ, byteSum_succ]
    rcases Nat.lt_or_ge i n with h | h
    · have := ih h
      rw [store_of_not_mem (show a + n < a + i ∨ a + i + [c].length ≤ a + n from
        .inr (by simp; omega))]
      omega
    · obtain rfl : i = n := by omega
      have hrest : byteSum (store m (a + i) [c]) a i = byteSum m a i :=
        byteSum_congr fun j _ hj => store_of_not_mem (.inl hj)
      have hnew : store m (a + i) [c] (a + i) = c := by simp [store]
      rw [hrest, hnew]
      omega

end Memory
