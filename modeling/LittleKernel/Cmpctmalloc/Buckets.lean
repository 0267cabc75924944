/-
# The buckets of the compact heap

`lib/heap/cmpctmalloc/cmpctmalloc.c`, from `size_to_index_helper` to
`find_nonempty_bucket`: which free list an area of a given size is on, and the
bitmap of the lists that are not empty.

The machine is a 64-bit one: `sizeof(header_t)` is 16, `sizeof(free_t)` is 32 and
a page has 4096 bytes.  A `size_t` is a natural number below `2 ^ 64`, an index an
integer, since `size_to_index_freeing` of fewer than 8 bytes is `-1`.

From 128 bytes on a bucket is a row and a column, eight columns in a row, and
`bucketSize` is the least size in it.  `bucketSize_rowColumn_le` and
`lt_bucketSize_succ` place every size between its bucket and the next one, and
`rounded_le_of_index_le` follows: an area on the list that an allocation starts
its search from, or on a later one, is large enough for it.
-/

import Mathlib.Order.Monotone.Basic
import Mathlib.Tactic.Ring
import LittleKernel.Lib.Word

namespace LittleKernel
namespace Cmpct

open Word Function

/-- `NUMBER_OF_BUCKETS`, `1 + 15 + (HEAP_ALLOC_VIRTUAL_BITS - 7) * 8`. -/
def numberOfBuckets : ℕ := 136

/-- `BUCKET_WORDS`. -/
def bucketWords : ℕ := 5

/-- `ROUNDUP(a, b)` of a `size_t`, `b` a power of two. -/
def roundup (a b : ℕ) : ℕ := u64 (a + (b - 1)) / b * b

/-- `ROUNDDOWN(a, b)`, `b` a power of two. -/
def rounddown (a b : ℕ) : ℕ := a / b * b

/-- `__builtin_clzl`. -/
def clzl (size : ℕ) : ℕ := 63 - Nat.log2 size

/-- `size_to_index_helper`: the index and `*rounded_up_out`. -/
def sizeToIndexHelper (size : ℕ) (adjust : ℤ) (increment : ℕ) : ℤ × ℕ :=
  if size ≤ 128 then
    (((size >>> 3 : ℕ) : ℤ) - 1, if size ≤ 32 - 16 then 32 - 16 else size)
  else
    let size := (size + adjust).toNat
    let row := 8 * 8 - 4 - clzl size
    let column := (size >>> row) &&& 7
    let rowColumn := ((row <<< 3) ||| column) + increment
    ((rowColumn : ℤ) + 15 - 32, (8 + (rowColumn &&& 7)) <<< (rowColumn >>> 3))

/-- `size_to_index_allocating`. -/
def sizeToIndexAllocating (size : ℕ) : ℤ × ℕ := sizeToIndexHelper (roundup size 8) (-8) 1

/-- `size_to_index_freeing`. -/
def sizeToIndexFreeing (size : ℕ) : ℤ := (sizeToIndexHelper size 0 0).1

/-- The index as one of `free_lists`; `none` when it is outside the array. -/
def bucketOf (index : ℤ) : Option ℕ :=
  if 0 ≤ index ∧ index < numberOfBuckets then some index.toNat else none

section Bits

/-- `free_list_bits`. -/
abbrev Bits := ℕ → BitVec 32

/-- The bit of bucket `index`. -/
def freeListBit (bits : Bits) (index : ℕ) : Bool := (bits (index / 32)).getLsbD (31 - index % 32)

/-- `set_free_list_bit`. -/
def setFreeListBit (bits : Bits) (index : ℕ) : Bits :=
  update bits (index / 32) (bits (index / 32) ||| 1#32 <<< (31 - index % 32))

/-- `clear_free_list_bit`. -/
def clearFreeListBit (bits : Bits) (index : ℕ) : Bits :=
  update bits (index / 32) (bits (index / 32) &&& ~~~(1#32 <<< (31 - index % 32)))

/-- The loop of `find_nonempty_bucket`, of at most `fuel` words. -/
def findWord (bits : Bits) : ℕ → ℕ → Option ℕ
  | 0, _ => none
  | fuel + 1, index =>
    if index ≤ numberOfBuckets then
      if bits (index / 32) ≠ 0 then some (index + (bits (index / 32)).clz.toNat)
      else findWord bits fuel (index + 32)
    else none

/-- `find_nonempty_bucket`, `none` for `-1`.  There are `BUCKET_WORDS` words, so the
loop has no more passes. -/
def findNonemptyBucket (bits : Bits) (index : ℕ) : Option ℕ :=
  let mask := (1#32 <<< (31 - index % 32) - 1) * 2 + 1
  let mask := mask &&& bits (index / 32)
  if mask ≠ 0 then some (index / 32 * 32 + mask.clz.toNat)
  else findWord bits bucketWords (roundup (index + 1) 32)

theorem getLsbD_one_shiftLeft {i j : ℕ} (hi : i < 32) :
    (1#32 <<< i).getLsbD j = decide (j = i) := by
  simp only [BitVec.getLsbD_shiftLeft, BitVec.getLsbD_one]
  by_cases h : j = i
  · simp [h, hi]
  · have : ¬(i ≤ j ∧ j - i = 0) := by omega
    simp only [h, decide_false, Bool.and_eq_false_iff]
    rcases Nat.lt_or_ge j i with hlt | hge
    · exact .inl (by simp [hlt])
    · exact .inr (by simp; omega)

@[simp] theorem freeListBit_set (bits : Bits) (i j : ℕ) :
    freeListBit (setFreeListBit bits i) j = (decide (j = i) || freeListBit bits j) := by
  unfold freeListBit setFreeListBit
  by_cases hw : j / 32 = i / 32
  · rw [hw, update_self, BitVec.getLsbD_or,
      getLsbD_one_shiftLeft (by omega), Bool.or_comm]
    congr 1
    exact decide_eq_decide.2 (by omega)
  · rw [update_of_ne hw, decide_eq_false (show ¬j = i by rintro rfl; exact hw rfl),
      Bool.false_or]

@[simp] theorem freeListBit_clear (bits : Bits) (i j : ℕ) :
    freeListBit (clearFreeListBit bits i) j = (decide (j ≠ i) && freeListBit bits j) := by
  unfold freeListBit clearFreeListBit
  by_cases hw : j / 32 = i / 32
  · rw [hw, update_self, BitVec.getLsbD_and, BitVec.getLsbD_not,
      getLsbD_one_shiftLeft (by omega), decide_eq_true (by omega), Bool.true_and,
      Bool.and_comm, ← decide_not]
    congr 1
    exact decide_eq_decide.2 (by omega)
  · rw [update_of_ne hw, decide_eq_true (show j ≠ i by rintro rfl; exact hw rfl),
      Bool.true_and]

/-- The mask of `find_nonempty_bucket` keeps the bits of the index and those after it. -/
theorem getLsbD_mask : ∀ k j : Fin 32,
    ((1#32 <<< k.val - 1) * 2 + 1).getLsbD j = decide (j ≤ k) := by
  decide +kernel

/-- The leading zeros of a word end at the first bit that is set. -/
theorem clz_spec {x : BitVec 32} (h : x ≠ 0) : x.clz.toNat < 32 ∧
    x.getLsbD (31 - x.clz.toNat) = true ∧ ∀ k < x.clz.toNat, x.getLsbD (31 - k) = false := by
  have hlt : x.clz.toNat < 32 := by simpa [BitVec.lt_def] using BitVec.clz_lt_iff_ne_zero.2 h
  refine ⟨hlt, BitVec.getLsbD_true_clz_of_ne_zero (by norm_num) h, fun k hk => ?_⟩
  refine Nat.testBit_lt_two_pow (BitVec.toNat_lt_two_pow_sub_clz.trans_le ?_)
  exact Nat.pow_le_pow_right (by norm_num) (by omega)

/-- What is returned is the first bucket from `index` on whose bit is set, if there is one. -/
def IsFirst (bits : Bits) (index : ℕ) : Option ℕ → Prop
  | some b => index ≤ b ∧ b < 32 * bucketWords ∧ freeListBit bits b = true ∧
      ∀ j, index ≤ j → j < b → freeListBit bits j = false
  | none => ∀ j, index ≤ j → j < 32 * bucketWords → freeListBit bits j = false

/-- In front of the first bucket there may be others that are not set. -/
theorem IsFirst.extend {bits : Bits} {lo index : ℕ} {r : Option ℕ} (h : IsFirst bits index r)
    (hle : lo ≤ index) (hzero : ∀ j, lo ≤ j → j < index → freeListBit bits j = false) :
    IsFirst bits lo r := by
  cases r with
  | none =>
    intro j hj hend
    rcases Nat.lt_or_ge j index with hlt | hge
    · exact hzero j hj hlt
    · exact h j hge hend
  | some b =>
    obtain ⟨hb, hend, hbit, hfirst⟩ := h
    refine ⟨hle.trans hb, hend, hbit, fun j hj hjb => ?_⟩
    rcases Nat.lt_or_ge j index with hlt | hge
    · exact hzero j hj hlt
    · exact hfirst j hge hjb

/-- The loop looks at all words from its first one on. -/
theorem findWord_first (bits : Bits) (fuel index : ℕ) (hi : index % 32 = 0)
    (hfuel : 32 * bucketWords ≤ index + 32 * fuel) : IsFirst bits index (findWord bits fuel index) := by
  induction fuel generalizing index with
  | zero => exact fun j hj hend => absurd hend (by omega)
  | succ fuel ih =>
    rw [findWord]
    by_cases hn : index ≤ numberOfBuckets
    · rw [if_pos hn]
      have hn' : index ≤ 136 := hn
      by_cases hz : bits (index / 32) ≠ 0
      · obtain ⟨hlt, hbit, hfirst⟩ := clz_spec hz
        rw [if_pos hz]
        refine ⟨Nat.le_add_right _ _, by simp only [bucketWords]; omega, ?_, fun j hj hjb => ?_⟩
        · rw [freeListBit, show (index + (bits (index / 32)).clz.toNat) / 32 = index / 32 by omega,
            show (index + (bits (index / 32)).clz.toNat) % 32 =
              (bits (index / 32)).clz.toNat by omega]
          exact hbit
        · rw [freeListBit, show j / 32 = index / 32 by omega]
          exact hfirst (j % 32) (by omega)
      · rw [if_neg hz]
        refine (ih (index + 32) (by omega) (by omega)).extend (Nat.le_add_right _ _) ?_
        intro j hj hlt
        rw [freeListBit, show j / 32 = index / 32 by omega, not_not.1 hz]
        exact BitVec.getLsbD_zero
    · rw [if_neg hn]
      intro j hj hend
      simp only [numberOfBuckets, bucketWords] at hn hend
      omega

/-- **`find_nonempty_bucket` returns the first bucket from the index on**, or none. -/
theorem findNonemptyBucket_first (bits : Bits) {index : ℕ} (hi : index < numberOfBuckets) :
    IsFirst bits index (findNonemptyBucket bits index) := by
  have hi' : index < 136 := hi
  have hmask : ∀ k < 32, (((1#32 <<< (31 - index % 32) - 1) * 2 + 1) &&&
      bits (index / 32)).getLsbD (31 - k) =
        (decide (index % 32 ≤ k) && (bits (index / 32)).getLsbD (31 - k)) := by
    intro k hk
    have h := getLsbD_mask ⟨31 - index % 32, by omega⟩ ⟨31 - k, by omega⟩
    simp only [Fin.mk_le_mk] at h
    rw [BitVec.getLsbD_and, h]
    congr 1
    exact decide_eq_decide.2 (by omega)
  simp only [findNonemptyBucket]
  generalize ((1#32 <<< (31 - index % 32) - 1) * 2 + 1) &&& bits (index / 32) = x at *
  split_ifs with hz
  · obtain ⟨hlt, hbit, hfirst⟩ := clz_spec hz
    rw [hmask _ hlt, Bool.and_eq_true, decide_eq_true_eq] at hbit
    refine ⟨by omega, by simp only [bucketWords]; omega, ?_, fun j hj hjb => ?_⟩
    · rw [freeListBit, show (index / 32 * 32 + x.clz.toNat) / 32 = index / 32 by omega,
        show (index / 32 * 32 + x.clz.toNat) % 32 = x.clz.toNat by omega]
      exact hbit.2
    · have hno := hfirst (j % 32) (by omega)
      rw [hmask _ (by omega), decide_eq_true (by omega), Bool.true_and] at hno
      rwa [freeListBit, show j / 32 = index / 32 by omega]
  · have hr : roundup (index + 1) 32 = (index + 32) / 32 * 32 := by
      rw [roundup, u64_of_lt (by omega)]
    rw [hr]
    refine (findWord_first bits bucketWords _ (by omega) (by omega)).extend (by omega) ?_
    intro j hj hlt
    have hno := hmask (j % 32) (by omega)
    rw [not_not.1 hz, decide_eq_true (by omega), Bool.true_and] at hno
    rw [freeListBit, show j / 32 = index / 32 by omega]
    exact hno.symm.trans BitVec.getLsbD_zero

/-- A bucket that is found is not before the index and its bit is set. -/
theorem findNonemptyBucket_spec {bits : Bits} {index b : ℕ} (hi : index < numberOfBuckets)
    (h : findNonemptyBucket bits index = some b) : index ≤ b ∧ freeListBit bits b = true := by
  have hfirst := findNonemptyBucket_first bits hi
  rw [h] at hfirst
  exact ⟨hfirst.1, hfirst.2.2.1⟩

end Bits

section Sizes

/-- The row and the column of a size as one number. -/
def rowColumn (f : ℕ) : ℕ := 8 * (Nat.log2 f - 3) + f / 2 ^ (Nat.log2 f - 3) % 8

/-- The least size in the bucket of a row and column. -/
def bucketSize (rc : ℕ) : ℕ := (8 + rc % 8) * 2 ^ (rc / 8)

theorem bucketSize_succ (rc : ℕ) : bucketSize (rc + 1) = (9 + rc % 8) * 2 ^ (rc / 8) := by
  unfold bucketSize
  rcases Nat.lt_or_ge (rc % 8) 7 with h | h
  · rw [show (rc + 1) % 8 = rc % 8 + 1 by omega, show (rc + 1) / 8 = rc / 8 by omega]
    ring
  · rw [show (rc + 1) % 8 = 0 by omega, show (rc + 1) / 8 = rc / 8 + 1 by omega,
      show rc % 8 = 7 by omega, pow_succ]
    ring

theorem bucketSize_strictMono : StrictMono bucketSize := by
  refine strictMono_nat_of_lt_succ fun rc => ?_
  rw [bucketSize_succ, bucketSize]
  exact Nat.mul_lt_mul_of_pos_right (by omega) (Nat.two_pow_pos _)

variable {f : ℕ}

/-- In its own row a size is between 8 and 15 units. -/
theorem div_row_bounds (hf : 8 ≤ f) :
    8 ≤ f / 2 ^ (Nat.log2 f - 3) ∧ f / 2 ^ (Nat.log2 f - 3) < 16 := by
  have h3 : 3 ≤ Nat.log2 f := (Nat.le_log2 (by omega)).2 hf
  have hle : 2 ^ (Nat.log2 f - 3) * 8 ≤ f := by
    rw [show (8 : ℕ) = 2 ^ 3 from rfl, ← pow_add, Nat.sub_add_cancel h3]
    exact Nat.log2_self_le (by omega)
  have hlt : f < 2 ^ (Nat.log2 f - 3) * 16 := by
    rw [show (16 : ℕ) = 2 ^ 4 from rfl, ← pow_add,
      show Nat.log2 f - 3 + 4 = Nat.log2 f + 1 by omega]
    exact Nat.lt_log2_self
  exact ⟨(Nat.le_div_iff_mul_le (Nat.two_pow_pos _)).2 (by rwa [Nat.mul_comm]),
    (Nat.div_lt_iff_lt_mul (Nat.two_pow_pos _)).2 (by rwa [Nat.mul_comm])⟩

theorem bucketSize_rowColumn (hf : 8 ≤ f) :
    bucketSize (rowColumn f) = f / 2 ^ (Nat.log2 f - 3) * 2 ^ (Nat.log2 f - 3) ∧
      bucketSize (rowColumn f + 1) = (f / 2 ^ (Nat.log2 f - 3) + 1) * 2 ^ (Nat.log2 f - 3) := by
  obtain ⟨h8, h16⟩ := div_row_bounds hf
  rw [bucketSize_succ, bucketSize, rowColumn]
  generalize f / 2 ^ (Nat.log2 f - 3) = q at *
  rw [show (8 * (Nat.log2 f - 3) + q % 8) % 8 = q - 8 by omega,
    show (8 * (Nat.log2 f - 3) + q % 8) / 8 = Nat.log2 f - 3 by omega,
    show 8 + (q - 8) = q by omega, show 9 + (q - 8) = q + 1 by omega]
  exact ⟨rfl, rfl⟩

/-- A size is at least that of its bucket. -/
theorem bucketSize_rowColumn_le (hf : 8 ≤ f) : bucketSize (rowColumn f) ≤ f := by
  rw [(bucketSize_rowColumn hf).1]
  exact Nat.div_mul_le_self _ _

/-- A size is below that of the next bucket. -/
theorem lt_bucketSize_succ (hf : 8 ≤ f) : f < bucketSize (rowColumn f + 1) := by
  rw [(bucketSize_rowColumn hf).2, Nat.mul_comm]
  exact Nat.lt_mul_div_succ f (Nat.two_pow_pos _)

theorem le_rowColumn (hf : 128 ≤ f) : 32 ≤ rowColumn f := by
  by_contra hlt
  have h₁ := lt_bucketSize_succ (f := f) (by omega)
  have h₂ : bucketSize (rowColumn f + 1) ≤ bucketSize 32 :=
    bucketSize_strictMono.monotone (by omega)
  have h₃ : bucketSize 32 = 128 := rfl
  omega

/-- The helper above 128 bytes, where `size + adjust` is `g`. -/
theorem sizeToIndexHelper_of_gt {size g increment : ℕ} {adjust : ℤ} (hs : 128 < size)
    (hg : (size + adjust).toNat = g) (hg8 : 8 ≤ g) (hg64 : g < 2 ^ 64) :
    sizeToIndexHelper size adjust increment =
      (((rowColumn g + increment : ℕ) : ℤ) - 17, bucketSize (rowColumn g + increment)) := by
  have h3 : 3 ≤ Nat.log2 g := (Nat.le_log2 (by omega)).2 hg8
  have h64 : Nat.log2 g < 64 := (Nat.log2_lt (by omega)).2 hg64
  have hrow : 8 * 8 - 4 - clzl g = Nat.log2 g - 3 := by unfold clzl; omega
  have hand : ∀ x : ℕ, x &&& 7 = x % 8 := fun x => Nat.and_two_pow_sub_one_eq_mod x 3
  have hrc : ((Nat.log2 g - 3) * 2 ^ 3 ||| g / 2 ^ (Nat.log2 g - 3) % 8) = rowColumn g := by
    rw [← Nat.shiftLeft_eq, ← Nat.shiftLeft_add_eq_or_of_lt (Nat.mod_lt _ (by norm_num)),
      Nat.shiftLeft_eq, rowColumn]
    omega
  simp only [sizeToIndexHelper, if_neg (Nat.not_le.2 hs), hg, hrow, hand, Nat.shiftRight_eq_div_pow,
    Nat.shiftLeft_eq, hrc, Prod.mk.injEq]
  exact ⟨by omega, rfl⟩

theorem sizeToIndexFreeing_of_le (hf : f ≤ 128) :
    sizeToIndexFreeing f = ((f / 8 : ℕ) : ℤ) - 1 := by
  rw [sizeToIndexFreeing, sizeToIndexHelper, if_pos hf, Nat.shiftRight_eq_div_pow]

theorem sizeToIndexFreeing_of_gt (hf : 128 < f) (hf64 : f < 2 ^ 64) :
    sizeToIndexFreeing f = (rowColumn f : ℤ) - 17 := by
  rw [sizeToIndexFreeing, sizeToIndexHelper_of_gt hf (by simp) (by omega) hf64]
  simp

variable {size : ℕ}

/-- The rounded size of a request is one of the sizes that the buckets hold. -/
theorem rounded_spec (hsize : 0 < size) (hsize' : size ≤ 2 ^ 22) :
    (sizeToIndexAllocating size).2 % 8 = 0 ∧ 16 ≤ (sizeToIndexAllocating size).2 ∧
      size ≤ (sizeToIndexAllocating size).2 ∧ (sizeToIndexAllocating size).2 ≤ 2 ^ 22 := by
  have hr : roundup size 8 = (size + 7) / 8 * 8 := by
    rw [roundup, u64_of_lt (by omega)]
  rw [sizeToIndexAllocating, hr]
  rcases Nat.lt_or_ge 128 ((size + 7) / 8 * 8) with hgt | hle
  · rw [sizeToIndexHelper_of_gt (g := (size + 7) / 8 * 8 - 8) hgt (by omega) (by omega)
      (by omega)]
    have h32 := le_rowColumn (f := (size + 7) / 8 * 8 - 8) (by omega)
    have hge := bucketSize_rowColumn_le (f := (size + 7) / 8 * 8 - 8) (by omega)
    have hlt := lt_bucketSize_succ (f := (size + 7) / 8 * 8 - 8) (by omega)
    generalize rowColumn ((size + 7) / 8 * 8 - 8) = rc at *
    -- from row 3 on the sizes are multiples of 8, so the next one is at least 8 more
    have hdvd : bucketSize (rc + 1) % 8 = 0 := by
      rw [bucketSize_succ, show rc / 8 = 3 + (rc / 8 - 3) by omega, pow_add,
        show (9 + rc % 8) * (2 ^ 3 * 2 ^ (rc / 8 - 3)) =
          8 * ((9 + rc % 8) * 2 ^ (rc / 8 - 3)) by ring]
      exact Nat.mul_mod_right _ _
    have hrc : rc + 1 ≤ 152 := by
      have h152 : bucketSize 152 = 2 ^ 22 := rfl
      exact bucketSize_strictMono.lt_iff_lt.1 (by omega)
    have hle : bucketSize (rc + 1) ≤ bucketSize 152 := bucketSize_strictMono.monotone hrc
    have h152 : bucketSize 152 = 2 ^ 22 := rfl
    simp only
    omega
  · simp only [sizeToIndexHelper, if_pos hle]
    split_ifs <;> omega

/-- **A bucket not before that of an allocation fits it.**  `f` is the payload of a
free area, so at least 16 bytes. -/
theorem rounded_le_of_index_le {size f : ℕ} (hsize : 0 < size) (hsize' : size ≤ 2 ^ 22)
    (hf : 16 ≤ f) (hf64 : f < 2 ^ 64) (h : (sizeToIndexAllocating size).1 ≤ sizeToIndexFreeing f) :
    (sizeToIndexAllocating size).2 ≤ f := by
  have hr : roundup size 8 = (size + 7) / 8 * 8 := by
    rw [roundup, u64_of_lt (by omega)]
  rw [sizeToIndexAllocating, hr] at h ⊢
  rcases Nat.lt_or_ge 128 ((size + 7) / 8 * 8) with hgt | hle
  · rw [sizeToIndexHelper_of_gt (g := (size + 7) / 8 * 8 - 8) hgt (by omega) (by omega)
      (by omega)] at h ⊢
    have h32 := le_rowColumn (f := (size + 7) / 8 * 8 - 8) (by omega)
    generalize rowColumn ((size + 7) / 8 * 8 - 8) = rc at *
    simp only at h ⊢
    -- a size of at most 128 bytes is on a list before the rows begin
    rcases Nat.lt_or_ge 128 f with hf128 | hf128
    · rw [sizeToIndexFreeing_of_gt hf128 hf64] at h
      have hmono : bucketSize (rc + 1) ≤ bucketSize (rowColumn f) :=
        bucketSize_strictMono.monotone (by omega)
      exact hmono.trans (bucketSize_rowColumn_le (by omega))
    · rw [sizeToIndexFreeing_of_le hf128] at h
      omega
  · simp only [sizeToIndexHelper, if_pos hle, Nat.shiftRight_eq_div_pow] at h ⊢
    rcases Nat.lt_or_ge 128 f with hf128 | hf128
    · split_ifs <;> omega
    · rw [sizeToIndexFreeing_of_le hf128] at h
      split_ifs <;> omega

/-- Larger areas are on no earlier list. -/
theorem sizeToIndexFreeing_mono {f g : ℕ} (hfg : f ≤ g) (hg : g < 2 ^ 64) :
    sizeToIndexFreeing f ≤ sizeToIndexFreeing g := by
  rcases Nat.lt_or_ge 128 f with hf | hf
  · have hlt : bucketSize (rowColumn f) < bucketSize (rowColumn g + 1) :=
      (bucketSize_rowColumn_le (by omega)).trans_lt
        (hfg.trans_lt (lt_bucketSize_succ (by omega)))
    have hrc := bucketSize_strictMono.lt_iff_lt.1 hlt
    rw [sizeToIndexFreeing_of_gt hf (by omega), sizeToIndexFreeing_of_gt (by omega) hg]
    omega
  · rw [sizeToIndexFreeing_of_le hf]
    rcases Nat.lt_or_ge 128 g with hg' | hg'
    · have h32 := le_rowColumn (f := g) (by omega)
      rw [sizeToIndexFreeing_of_gt hg' hg]
      omega
    · rw [sizeToIndexFreeing_of_le hg']
      omega

/-- The index of a free area is one of the array. -/
theorem sizeToIndexFreeing_bounds (hf : 16 ≤ f) (hf' : f ≤ 2 ^ 22) :
    0 ≤ sizeToIndexFreeing f ∧ sizeToIndexFreeing f < numberOfBuckets := by
  have hlow : sizeToIndexFreeing 16 = 1 := rfl
  have hhigh : sizeToIndexFreeing (2 ^ 22) = 135 := by decide
  have h₁ := sizeToIndexFreeing_mono hf (by omega)
  have h₂ := sizeToIndexFreeing_mono hf' (by norm_num)
  simp only [numberOfBuckets]
  omega

/-- An area of the rounded size is on the list that an allocation starts from, or on a later
one. -/
theorem index_le_index_rounded (hsize : 0 < size) (hsize' : size ≤ 2 ^ 22) :
    0 ≤ (sizeToIndexAllocating size).1 ∧
      (sizeToIndexAllocating size).1 ≤ sizeToIndexFreeing (sizeToIndexAllocating size).2 := by
  obtain ⟨-, -, -, htop⟩ := rounded_spec hsize hsize'
  have hr : roundup size 8 = (size + 7) / 8 * 8 := by
    rw [roundup, u64_of_lt (by omega)]
  rw [sizeToIndexAllocating, hr] at htop ⊢
  rcases Nat.lt_or_ge 128 ((size + 7) / 8 * 8) with hgt | hle
  · rw [sizeToIndexHelper_of_gt (g := (size + 7) / 8 * 8 - 8) hgt (by omega) (by omega)
      (by omega)] at htop ⊢
    have h32 := le_rowColumn (f := (size + 7) / 8 * 8 - 8) (by omega)
    generalize rowColumn ((size + 7) / 8 * 8 - 8) = rc at *
    simp only at htop ⊢
    have h128 : bucketSize 32 < bucketSize (rc + 1) := bucketSize_strictMono (by omega)
    have h32' : bucketSize 32 = 128 := rfl
    have hnext := bucketSize_strictMono.lt_iff_lt.1
      (lt_bucketSize_succ (f := bucketSize (rc + 1)) (by omega))
    rw [sizeToIndexFreeing_of_gt (by omega) (by omega)]
    omega
  · simp only [sizeToIndexHelper, if_pos hle, Nat.shiftRight_eq_div_pow]
    split_ifs
    · rw [sizeToIndexFreeing_of_le (by omega)]
      omega
    · rw [sizeToIndexFreeing_of_le (by omega)]
      omega

/-- **Bucket arithmetic**: a request is rounded up to a size that is large enough; the indexes
are in the array and larger areas have no smaller ones; an area fits the rounded request exactly
if its index is not before the request's; and a search finds the first list from the index on
whose bit is set, one of the array where no other bit is, or none if there is none. -/
theorem buckets_exact :
    (∀ size f, 0 < size → size ≤ 2 ^ 22 → 16 ≤ f → f ≤ 2 ^ 22 →
      size ≤ (sizeToIndexAllocating size).2 ∧
      (0 ≤ (sizeToIndexAllocating size).1 ∧ (sizeToIndexAllocating size).1 < numberOfBuckets) ∧
      (0 ≤ sizeToIndexFreeing f ∧ sizeToIndexFreeing f < numberOfBuckets) ∧
      ((sizeToIndexAllocating size).2 ≤ f ↔
        (sizeToIndexAllocating size).1 ≤ sizeToIndexFreeing f)) ∧
    (∀ f g, f ≤ g → g ≤ 2 ^ 22 → sizeToIndexFreeing f ≤ sizeToIndexFreeing g) ∧
    ∀ bits index, (∀ j, numberOfBuckets ≤ j → j < 32 * bucketWords → freeListBit bits j = false) →
      index < numberOfBuckets →
      (∀ b, findNonemptyBucket bits index = some b ↔ index ≤ b ∧ b < numberOfBuckets ∧
        freeListBit bits b = true ∧ ∀ j, index ≤ j → j < b → freeListBit bits j = false) ∧
      (findNonemptyBucket bits index = none ↔
        ∀ j, index ≤ j → j < numberOfBuckets → freeListBit bits j = false) := by
  refine ⟨fun size f hsize hsize' hf hf' => ?_, fun f g hfg hg => ?_, fun bits index hnone hi => ?_⟩
  · obtain ⟨-, h16, hle, htop⟩ := rounded_spec hsize hsize'
    obtain ⟨hpos, hindex⟩ := index_le_index_rounded hsize hsize'
    have hlast := (sizeToIndexFreeing_bounds h16 htop).2
    refine ⟨hle, ⟨hpos, by omega⟩, sizeToIndexFreeing_bounds hf hf', fun h => ?_, fun h => ?_⟩
    · exact hindex.trans (sizeToIndexFreeing_mono h (by omega))
    · exact rounded_le_of_index_le hsize hsize' hf (by omega) h
  · exact sizeToIndexFreeing_mono hfg (by omega)
  · have hfirst := findNonemptyBucket_first bits hi
    cases hfind : findNonemptyBucket bits index with
    | none =>
      rw [hfind] at hfirst
      have hclear : ∀ j, index ≤ j → j < numberOfBuckets → freeListBit bits j = false :=
        fun j hj hlt => hfirst j hj (by simp only [numberOfBuckets, bucketWords] at *; omega)
      refine ⟨fun b => iff_of_false (by simp) ?_, iff_of_true rfl hclear⟩
      rintro ⟨hb, hlt, hbit, -⟩
      rw [hclear b hb hlt] at hbit
      cases hbit
    | some b =>
      rw [hfind] at hfirst
      obtain ⟨hb, hend, hbit, hleast⟩ := hfirst
      have hlt : b < numberOfBuckets := by
        by_contra hge
        rw [hnone b (Nat.le_of_not_lt hge) hend] at hbit
        cases hbit
      refine ⟨fun b' => ⟨?_, ?_⟩, iff_of_false (by simp) fun h => ?_⟩
      · rintro h
        cases h
        exact ⟨hb, hlt, hbit, hleast⟩
      · rintro ⟨hb', -, hbit', hleast'⟩
        rcases Nat.lt_trichotomy b b' with h | rfl | h
        · rw [hleast' b hb h] at hbit
          cases hbit
        · rfl
        · rw [hleast b' hb' h] at hbit'
          cases hbit'
      · rw [h b hb hlt] at hbit
        cases hbit

/-- A request so large that adding the header wraps has no bucket. -/
theorem bucketOf_of_wraps (hsize : 2 ^ 64 ≤ size + 16) (hsize' : size < 2 ^ 64) :
    bucketOf (sizeToIndexAllocating size).1 = none := by
  rw [sizeToIndexAllocating, roundup, u64]
  rcases Nat.lt_or_ge (size + (8 - 1)) (2 ^ 64) with hlt | hge
  · rw [Nat.mod_eq_of_lt hlt, sizeToIndexHelper_of_gt (g := (size + (8 - 1)) / 8 * 8 - 8) (by omega)
      (by omega) (by omega) (by omega), bucketOf, if_neg]
    have hg := lt_bucketSize_succ (f := (size + (8 - 1)) / 8 * 8 - 8) (by omega)
    rintro ⟨-, hidx⟩
    have hle : bucketSize (rowColumn ((size + (8 - 1)) / 8 * 8 - 8) + 1) ≤ bucketSize 153 :=
      bucketSize_strictMono.monotone (by simp only [numberOfBuckets] at hidx; omega)
    have h153 : bucketSize 153 = 4718592 := rfl
    omega
  · have hzero : (size + (8 - 1)) % 2 ^ 64 / 8 * 8 = 0 := by omega
    rw [hzero]
    decide

/-- What has a bucket and is not too large with its header is small, as no sum has wrapped. -/
theorem small_of_bucketOf {start : ℕ} (hsize : size < 2 ^ 64) (hlarge : ¬2 ^ 22 < u64 (size + 16))
    (hstart : bucketOf (sizeToIndexAllocating size).1 = some start) :
    size + 16 ≤ 2 ^ 22 ∧ start < numberOfBuckets := by
  constructor
  · rcases Nat.lt_or_ge (size + 16) (2 ^ 64) with hlt | hge
    · rw [u64_of_lt hlt] at hlarge
      omega
    · rw [bucketOf_of_wraps hge hsize] at hstart
      cases hstart
  · unfold bucketOf at hstart
    split_ifs at hstart with hb
    have := Option.some.inj hstart
    omega

end Sizes

end Cmpct
end LittleKernel
