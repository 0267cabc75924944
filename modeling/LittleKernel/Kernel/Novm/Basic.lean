/-
# Pages without a virtual memory system

The page allocator of `kernel/novm/novm.c`.  An arena is a range of pages with a map of one
byte for each page, and the map is in the memory the arena is about: `novm_init_helper`
carves it out of the front of the arena, page by page, until it has room for the pages that
are left, or takes a map it is given.  What is left in front of the first page is handed out
once by `novm_alloc_unaligned`.

Memory is a function of its addresses, and the arenas are the ones of the static array.
Names, locks and the console commands are left out.

`search_cases` is what the first-fit loop finds, which moves its own index behind the taken
page it met; `initHelper_spec` is how the memory of an arena is divided.
-/

import LittleKernel.Lib.Ranges
import LittleKernel.Lib.Word

namespace LittleKernel
namespace Novm

open Ranges Word Function

/-- The build: the width of an address, `PAGE_SIZE_SHIFT`, and `NOVM_MAX_ARENAS`, which is
the number of bits of `arena_bitmap` at most. -/
structure Config where
  width : ℕ
  pageSizeShift : ℕ
  maxArenas : ℕ
  two_le : 2 ≤ pageSizeShift
  le_width : pageSizeShift + 2 ≤ width
  arenas_pos : 0 < maxArenas
  arenas_le : maxArenas ≤ 32

/-- `PAGE_SIZE`. -/
def Config.pageSize (c : Config) : ℕ := 2 ^ c.pageSizeShift

/-- `struct novm_arena`. -/
structure Arena where
  pages : ℕ
  map : ℕ
  base : ℕ
  size : ℕ
  unalignedArea : ℕ
  unalignedSize : ℕ

/-- An arena of the static array before anything is done with it. -/
def Arena.unused : Arena := ⟨0, 0, 0, 0, 0, 0⟩

/-- The arenas and the memory. -/
structure State where
  arena : ℕ → Arena
  mem : ℕ → UInt8

/-- `status_t`. -/
inductive Status where
  | noError
  | errNotFound
  | errNoMemory
  deriving DecidableEq

/-- `memset`. -/
def memset (m : ℕ → UInt8) (a : ℕ) (v : UInt8) (n : ℕ) : ℕ → UInt8 := fun x =>
  if a ≤ x ∧ x < a + n then v else m x

/-- `ROUNDUP`. -/
def roundup (w a b : ℕ) : ℕ := addW w a (b - 1) / b * b

/-- `ROUNDDOWN`. -/
def rounddown (a b : ℕ) : ℕ := a / b * b

/-- `MINIMUM_USEFUL_UNALIGNED_SIZE`. -/
def minimumUsefulUnalignedSize : ℕ := 64

/-- `x >= MINIMUM_USEFUL_UNALIGNED_SIZE` for a difference of pointers, which is signed. -/
def usefulDistance (w x : ℕ) : Prop := x < 2 ^ (w - 1) ∧ minimumUsefulUnalignedSize ≤ x

instance (w x : ℕ) : Decidable (usefulDistance w x) := inferInstanceAs (Decidable (_ ∧ _))

variable (c : Config)

/-- `in_arena`. -/
def inArena (n : Arena) (p : ℕ) : Prop :=
  n.size ≠ 0 ∧ n.base ≤ p ∧ p < addW c.width n.base n.size

instance (n : Arena) (p : ℕ) : Decidable (inArena c n p) := inferInstanceAs (Decidable (_ ∧ _ ∧ _))

/-- The loop that carves the map out of the arena, with `map_size`, `start` and `size`. -/
def carve (arenaStart : ℕ) : ℕ → ℕ → ℕ → ℕ × ℕ × ℕ
  | 0, start, size => (0, start, size)
  | mapSize + 1, start, size =>
    if subW c.width start arenaStart < mapSize + 1 then
      carve arenaStart mapSize (addW c.width start c.pageSize) (subW c.width size c.pageSize)
    else (mapSize + 1, start, size)

/-- What `novm_init_helper` makes of an arena. -/
def arenaOf (n : Arena) (arenaStart arenaSize defaultMap defaultMapSize : ℕ) : Arena :=
  let start := roundup c.width arenaStart c.pageSize
  let size := subW c.width (rounddown (addW c.width arenaStart arenaSize) c.pageSize) start
  let mapSize := size / c.pageSize
  if defaultMap = 0 ∨ defaultMapSize < mapSize then
    let (mapSize, start, size) := carve c arenaStart mapSize start size
    let area := addW c.width arenaStart (roundup c.width mapSize 4)
    let (unalignedArea, unalignedSize) :=
      if usefulDistance c.width (subW c.width start area) then (area, subW c.width start area)
      else (n.unalignedArea, n.unalignedSize)
    ⟨mapSize, arenaStart, start, size, unalignedArea, unalignedSize⟩
  else
    let (unalignedArea, unalignedSize) :=
      if minimumUsefulUnalignedSize ≤ subW c.width start arenaStart then
        (arenaStart, subW c.width start arenaStart)
      else (n.unalignedArea, n.unalignedSize)
    ⟨mapSize, defaultMap, start, size, unalignedArea, unalignedSize⟩

/-- `novm_init_helper`. -/
def initHelper (s : State) (i arenaStart arenaSize defaultMap defaultMapSize : ℕ) : State :=
  let n := arenaOf c (s.arena i) arenaStart arenaSize defaultMap defaultMapSize
  ⟨update s.arena i n, memset s.mem n.map 0 n.pages⟩

/-- `novm_init`. -/
def init (s : State) (memStart memSize map defaultMapSize : ℕ) : State :=
  initHelper c s 0 memStart memSize map defaultMapSize

/-- The arena `novm_add_arena` takes; nothing is the panic. -/
def freeArena (s : State) : Option ℕ :=
  (List.range c.maxArenas).find? fun i => (s.arena i).pages = 0

/-- `novm_add_arena`. -/
def addArena (s : State) (arenaStart arenaSize : ℕ) : Option State :=
  (freeArena c s).map fun i => initHelper c s i arenaStart arenaSize 0 0

/-- The first of the `pages` pages from index `i` on that is taken. -/
def firstTaken (m : ℕ → UInt8) (map i pages : ℕ) : Option ℕ :=
  (List.range pages).find? fun j => m (map + i + j) ≠ 0

/-- The loop of `novm_alloc_helper` over the index `i`, with the steps it may still take. -/
def search (m : ℕ → UInt8) (n : Arena) (pages : ℕ) : ℕ → ℕ → Option ℕ
  | 0, _ => none
  | fuel + 1, i =>
    if i ≤ n.pages - pages then
      match firstTaken m n.map i pages with
      | some j => search m n pages fuel (i + j + 1)
      | none => some i
    else none

/-- `novm_alloc_helper`; 0 is `NULL`.  The index grows with each step. -/
def allocHelper (s : State) (n : Arena) (pages : ℕ) : ℕ × State :=
  if pages = 0 ∨ n.pages < pages then (0, s)
  else
    match search s.mem n pages (n.pages - pages + 1) 0 with
    | some i => (n.base + i * c.pageSize, { s with mem := memset s.mem (n.map + i) 1 pages })
    | none => (0, s)

/-- The loop of `novm_alloc_pages` over the arenas. -/
def allocFrom (pages bitmap : ℕ) : List ℕ → State → ℕ × State
  | [], s => (0, s)
  | i :: is, s =>
    if bitmap.testBit i then
      let r := allocHelper c s (s.arena i) pages
      if r.1 ≠ 0 then r else allocFrom pages bitmap is r.2
    else allocFrom pages bitmap is s

/-- `novm_alloc_pages`. -/
def allocPages (s : State) (pages bitmap : ℕ) : ℕ × State :=
  allocFrom c pages bitmap (List.range c.maxArenas) s

/-- `NOVM_ARENA_ANY`. -/
def novmArenaAny : ℕ := 2 ^ 32 - 1

/-- `novm_alloc_unaligned`, with the size it returns. -/
def allocUnaligned (s : State) : ℕ × ℕ × State :=
  let n := s.arena 0
  if n.unalignedArea ≠ 0 then
    (n.unalignedArea, n.unalignedSize,
      { s with arena := update s.arena 0 { n with unalignedArea := 0, unalignedSize := 0 } })
  else
    let r := allocPages c s 1 novmArenaAny
    (r.1, c.pageSize, r.2)

/-- The arena an address is in. -/
def findArena (s : State) (address : ℕ) : Option ℕ :=
  (List.range c.maxArenas).find? fun i => inArena c (s.arena i) address

/-- `novm_free_pages`. -/
def freePages (s : State) (address pages : ℕ) : State :=
  match findArena c s address with
  | none => s
  | some i =>
    let n := s.arena i
    { s with mem := memset s.mem (n.map + (address - n.base) / c.pageSize) 0 pages }

/-- The loop of `novm_alloc_specific_pages` over the entries of the map from `a` on. -/
def markEach (m : ℕ → UInt8) (a : ℕ) : ℕ → Status × (ℕ → UInt8)
  | 0 => (.noError, m)
  | pages + 1 =>
    if m a ≠ 0 then (.errNoMemory, m) else markEach (update m a 1) (a + 1) pages

/-- `novm_alloc_specific_pages`. -/
def allocSpecificPages (s : State) (address pages : ℕ) : Status × State :=
  match findArena c s address with
  | none => (.errNotFound, s)
  | some i =>
    let n := s.arena i
    let r := markEach s.mem (n.map + (address - n.base) / c.pageSize) pages
    (r.1, { s with mem := r.2 })

variable {c}

/-! ### The search -/

/-- The `pages` entries of the map from `i` on are those of free pages. -/
def Vacant (m : ℕ → UInt8) (n : Arena) (pages i : ℕ) : Prop :=
  i + pages ≤ n.pages ∧ ∀ j < pages, m (n.map + i + j) = 0

instance (m : ℕ → UInt8) (n : Arena) (pages i : ℕ) : Decidable (Vacant m n pages i) :=
  inferInstanceAs (Decidable (_ ∧ _))

variable {m : ℕ → UInt8}

theorem firstTaken_none {map i pages : ℕ} (h : firstTaken m map i pages = none) :
    ∀ j < pages, m (map + i + j) = 0 := fun j hj => by
  simpa using List.find?_eq_none.1 h j (List.mem_range.2 hj)

theorem firstTaken_some {map i pages j : ℕ}
    (h : firstTaken m map i pages = some j) : j < pages ∧ m (map + i + j) ≠ 0 :=
  ⟨List.mem_range.1 (List.mem_of_find?_eq_some h), by simpa using List.find?_some h⟩

/-- **First fit.**  The loop finds the first vacant run from where it stands; the indices it
skips are those of runs with the taken page it met. -/
theorem search_cases {n : Arena} {pages : ℕ} (hn : pages ≤ n.pages) :
    ∀ fuel i, n.pages - pages < fuel + i →
      (∃ k, search m n pages fuel i = some k ∧ i ≤ k ∧ Vacant m n pages k ∧
          ∀ l, i ≤ l → l < k → ¬Vacant m n pages l) ∨
        search m n pages fuel i = none ∧ ∀ l, i ≤ l → ¬Vacant m n pages l := by
  intro fuel
  induction fuel with
  | zero =>
    refine fun i hi => .inr ⟨rfl, fun l hl hv => ?_⟩
    have := hv.1
    omega
  | succ fuel ih =>
    intro i hi
    rw [search]
    split_ifs with hle
    · cases hf : firstTaken m n.map i pages with
      | none => exact .inl ⟨i, rfl, le_rfl, ⟨by omega, firstTaken_none hf⟩, fun l h₁ h₂ => by omega⟩
      | some j =>
        obtain ⟨hj, hm⟩ := firstTaken_some hf
        -- the runs that start up to the taken page have it
        have hskip : ∀ l, i ≤ l → l < i + j + 1 → ¬Vacant m n pages l := fun l h₁ h₂ hv =>
          hm (by
            have := hv.2 (i + j - l) (by omega)
            rwa [show n.map + l + (i + j - l) = n.map + i + j by omega] at this)
        rcases ih (i + j + 1) (by omega) with ⟨k, hk, hik, hv, hmin⟩ | ⟨hk, hmin⟩
        · refine .inl ⟨k, hk, by omega, hv, fun l h₁ h₂ => ?_⟩
          rcases Nat.lt_or_ge l (i + j + 1) with hl | hl
          · exact hskip l h₁ hl
          · exact hmin l hl h₂
        · refine .inr ⟨hk, fun l h₁ => ?_⟩
          rcases Nat.lt_or_ge l (i + j + 1) with hl | hl
          · exact hskip l h₁ hl
          · exact hmin l hl
    · refine .inr ⟨rfl, fun l hl hv => ?_⟩
      have := hv.1
      omega

/-- **What `novm_alloc_helper` does.** -/
theorem allocHelper_cases (s : State) (n : Arena) {pages : ℕ} (hp : 0 < pages) :
    (∃ k, allocHelper c s n pages =
        (n.base + k * c.pageSize, { s with mem := memset s.mem (n.map + k) 1 pages }) ∧
        Vacant s.mem n pages k ∧ ∀ l < k, ¬Vacant s.mem n pages l) ∨
      allocHelper c s n pages = (0, s) ∧ ∀ l, ¬Vacant s.mem n pages l := by
  rw [allocHelper]
  split_ifs with h
  · refine .inr ⟨rfl, fun l hv => ?_⟩
    have := hv.1
    omega
  · rcases search_cases (m := s.mem) (n := n) (show pages ≤ n.pages by omega)
      (n.pages - pages + 1) 0 (by omega) with ⟨k, hk, -, hv, hmin⟩ | ⟨hk, hmin⟩
    · exact .inl ⟨k, by rw [hk], hv, fun l hl => hmin l (Nat.zero_le l) hl⟩
    · exact .inr ⟨by rw [hk], fun l => hmin l (Nat.zero_le l)⟩

/-- The loop that marks: all the entries if they are of free pages, and else those up to the
first that is not. -/
theorem markEach_of_vacant : ∀ (pages : ℕ) (m : ℕ → UInt8) (a : ℕ),
    (∀ j < pages, m (a + j) = 0) → markEach m a pages = (.noError, memset m a 1 pages)
  | 0, m, a, _ => by
      have : memset m a 1 0 = m := funext fun x => if_neg (by omega)
      rw [this, markEach]
  | pages + 1, m, a, h => by
      have hrest : ∀ j < pages, update m a 1 (a + 1 + j) = 0 := fun j hj => by
        rw [update_of_ne (by omega), Nat.add_assoc, Nat.add_comm 1]
        exact h (j + 1) (by omega)
      rw [markEach, if_neg (by simpa using h 0 (by omega)), markEach_of_vacant pages _ _ hrest]
      congr 1
      funext x
      rcases Nat.lt_trichotomy x a with hx | rfl | hx
      · rw [memset, if_neg (by omega), memset, if_neg (by omega), update_of_ne (by omega)]
      · rw [memset, if_neg (by omega), memset, if_pos (by omega), update_self]
      · rw [memset, memset, update_of_ne (by omega)]
        exact if_congr (by omega) rfl rfl

/-! ### The memory of an arena -/

theorem Config.pageSize_pos (c : Config) : 0 < c.pageSize := Nat.two_pow_pos _

theorem Config.pageSize_dvd (c : Config) : c.pageSize ∣ 2 ^ c.width :=
  pow_dvd_pow 2 (by have := c.le_width; omega)

theorem Config.four_le_pageSize (c : Config) : 4 ≤ c.pageSize :=
  Nat.pow_le_pow_right (n := 2) (by decide) c.two_le

/-- There are few pages, and each of them is small, for an address. -/
theorem Config.pageSize_add_lt (c : Config) {m : ℕ} (h : m * c.pageSize < 2 ^ c.width) :
    m + c.pageSize ≤ 2 ^ (c.width - 1) ∧ 2 ^ c.width = 2 * 2 ^ (c.width - 1) := by
  have hw := c.le_width
  have h2 := c.two_le
  have hm : m < 2 ^ (c.width - c.pageSizeShift) := by
    refine Nat.lt_of_mul_lt_mul_right (a := c.pageSize) (lt_of_lt_of_eq h ?_)
    rw [Config.pageSize, ← Nat.pow_add]
    congr 1
    omega
  have h₁ : 2 ^ (c.width - c.pageSizeShift) ≤ 2 ^ (c.width - 2) :=
    Nat.pow_le_pow_right (by decide) (by omega)
  have h₃ : c.pageSize ≤ 2 ^ (c.width - 2) := Nat.pow_le_pow_right (by decide) (by omega)
  have h₄ : 2 ^ (c.width - 1) = 2 * 2 ^ (c.width - 2) := by
    rw [← Nat.pow_succ']
    congr 1
    omega
  refine ⟨by omega, ?_⟩
  rw [← Nat.pow_succ']
  congr 1
  omega

/-- A distance in `w` bits. -/
theorem subW_mod {w a d : ℕ} (hd : d < 2 ^ w) : subW w ((a + d) % 2 ^ w) (a % 2 ^ w) = d := by
  have hr := Nat.mod_lt a (Nat.two_pow_pos w)
  have ha := Nat.div_add_mod a (2 ^ w)
  rw [subW, Nat.mod_mod, Nat.mod_add_mod,
    show a + d + (2 ^ w - a % 2 ^ w) = d + 2 ^ w * (a / 2 ^ w + 1) by
      rw [Nat.mul_add, Nat.mul_one]; omega,
    Nat.add_mul_mod_self_left, Nat.mod_eq_of_lt hd]

/-- A distance in `w` bits that is less than 0. -/
theorem subW_neg {w a d : ℕ} (hd : 0 < d) (hd' : d ≤ 2 ^ w) :
    subW w (a % 2 ^ w) ((a + d) % 2 ^ w) = 2 ^ w - d := by
  have h := subW_mod (a := a + d) (show 2 ^ w - d < 2 ^ w by omega)
  rwa [show a + d + (2 ^ w - d) = a + 2 ^ w by omega, Nat.add_mod_right] at h

/-- **The carving loop.**  It moves `k` pages from the arena to the map, and then the map has
room for the pages that are left. -/
theorem carve_cases {arenaStart : ℕ} (has : arenaStart < 2 ^ c.width) :
    ∀ m S, arenaStart ≤ S → S + m * c.pageSize ≤ 2 ^ c.width → m * c.pageSize < 2 ^ c.width →
      ∃ k ≤ m, carve c arenaStart m (S % 2 ^ c.width) (m * c.pageSize) =
          (m - k, (S + k * c.pageSize) % 2 ^ c.width, (m - k) * c.pageSize) ∧
        m - k ≤ S + k * c.pageSize - arenaStart ∧
        (k = 0 ∨ S + k * c.pageSize - arenaStart < m + c.pageSize) := by
  have hP := c.pageSize_pos
  intro m
  induction m with
  | zero => exact fun S _ _ _ => ⟨0, le_rfl, by simp [carve], by omega, .inl rfl⟩
  | succ m ih =>
    intro S hS htop hlt
    have hsucc : (m + 1) * c.pageSize = m * c.pageSize + c.pageSize := Nat.succ_mul ..
    have hdist : subW c.width (S % 2 ^ c.width) arenaStart = S - arenaStart := by
      have := subW_mod (a := arenaStart) (show S - arenaStart < 2 ^ c.width by omega)
      rwa [Nat.add_sub_cancel' hS, Nat.mod_eq_of_lt has] at this
    rw [carve, hdist]
    split_ifs with h
    · obtain ⟨k, hk, heq, hroom, hlast⟩ := ih (S + c.pageSize) (by omega) (by omega) (by omega)
      have hk1 : (k + 1) * c.pageSize = k * c.pageSize + c.pageSize := Nat.succ_mul ..
      refine ⟨k + 1, by omega, ?_, by omega, .inr ?_⟩
      · rw [addW, Nat.mod_add_mod, subW_of_le hlt (by omega), hsucc, Nat.add_sub_cancel, heq,
          hk1, show S + c.pageSize + k * c.pageSize = S + (k * c.pageSize + c.pageSize) by omega,
          Nat.add_sub_add_right]
      · rcases hlast with rfl | hlast <;> omega
    · exact ⟨0, by omega, by simp, by omega, .inl rfl⟩

/-- The memory is there, and it has a page boundary in it. -/
def Fits (c : Config) (arenaStart arenaSize : ℕ) : Prop :=
  arenaStart + arenaSize ≤ 2 ^ c.width ∧
    (arenaStart + (c.pageSize - 1)) / c.pageSize * c.pageSize ≤ arenaStart + arenaSize

instance (arenaStart arenaSize : ℕ) : Decidable (Fits c arenaStart arenaSize) :=
  inferInstanceAs (Decidable (_ ∧ _))

/-- The ranges an arena is about. -/
def Arena.pieces (n : Arena) : List (ℕ × ℕ) :=
  [(n.base, n.size), (n.map, n.pages), (n.unalignedArea, n.unalignedSize)]

/-- **How the memory is divided.**  The new arena `n` has its pages inside of what it is
given, and none of the memory it is given for two things. -/
structure Divided (c : Config) (old n : Arena) (region map : ℕ × ℕ) : Prop where
  size_eq : n.size = n.pages * c.pageSize
  aligned : c.pageSize ∣ n.base
  top : n.base + n.size ≤ 2 ^ c.width
  inside : n.pages = 0 ∨ region.1 ≤ n.base ∧ n.base + n.size ≤ region.1 + region.2
  once : ∀ a, cover n.pieces a ≤
    hits a region + hits a map + hits a (old.unalignedArea, old.unalignedSize)
  area : (old.unalignedArea ≠ 0 → 0 < old.unalignedSize) → n.unalignedArea ≠ 0 → 0 < n.unalignedSize

/-- The page boundaries of the memory, and how `novm_init_helper` computes them. -/
theorem boundaries {arenaStart arenaSize : ℕ}
    (hsz : arenaSize < 2 ^ c.width) (h : Fits c arenaStart arenaSize) :
    ∃ T m, c.pageSize ∣ T ∧ arenaStart ≤ T ∧ T < arenaStart + c.pageSize ∧
      T + m * c.pageSize ≤ arenaStart + arenaSize ∧ m * c.pageSize < 2 ^ c.width ∧
      roundup c.width arenaStart c.pageSize = T % 2 ^ c.width ∧
      subW c.width (rounddown (addW c.width arenaStart arenaSize) c.pageSize)
        (roundup c.width arenaStart c.pageSize) = m * c.pageSize := by
  obtain ⟨htop, hT⟩ := h
  have hP := c.pageSize_pos
  have hPw := Nat.le_of_dvd (Nat.two_pow_pos _) c.pageSize_dvd
  have hdiv := Nat.div_add_mod (arenaStart + (c.pageSize - 1)) c.pageSize
  have hmod := Nat.mod_lt (arenaStart + (c.pageSize - 1)) hP
  rw [Nat.mul_comm] at hdiv
  have hE := Nat.div_mul_le_self (arenaStart + arenaSize) c.pageSize
  generalize hTdef : (arenaStart + (c.pageSize - 1)) / c.pageSize * c.pageSize = T at *
  have hdvd : c.pageSize ∣ T := hTdef ▸ Nat.dvd_mul_left ..
  have hTE : T ≤ (arenaStart + arenaSize) / c.pageSize * c.pageSize := by
    rw [← Nat.div_mul_cancel hdvd]
    exact Nat.mul_le_mul_right _ (Nat.div_le_div_right hT)
  obtain ⟨m, hm⟩ : ∃ m, T + m * c.pageSize = (arenaStart + arenaSize) / c.pageSize * c.pageSize := by
    obtain ⟨m, hm⟩ := Nat.dvd_sub (Nat.dvd_mul_left c.pageSize
      ((arenaStart + arenaSize) / c.pageSize)) hdvd
    exact ⟨m, by rw [Nat.mul_comm m, ← hm]; omega⟩
  have hup : roundup c.width arenaStart c.pageSize = T % 2 ^ c.width := by
    rcases Nat.lt_or_ge (arenaStart + (c.pageSize - 1)) (2 ^ c.width) with hlt | hge
    · rw [roundup, addW_of_lt hlt, hTdef, Nat.mod_eq_of_lt (by omega)]
    · -- only the top of the address space is left, which is a boundary
      obtain ⟨t, ht⟩ := c.pageSize_dvd
      have hge' : 2 ^ c.width ≤ T := by
        rw [← hTdef, ht, Nat.mul_comm]
        exact Nat.mul_le_mul_right _ ((Nat.le_div_iff_mul_le hP).2 (by rw [Nat.mul_comm, ← ht]; omega))
      rw [roundup, addW, Nat.mod_eq_sub_mod hge, Nat.mod_eq_of_lt (by omega),
        Nat.div_eq_of_lt (by omega), Nat.zero_mul, show T = 2 ^ c.width by omega, Nat.mod_self]
  have hdown : rounddown (addW c.width arenaStart arenaSize) c.pageSize =
      (T + m * c.pageSize) % 2 ^ c.width := by
    rw [hm]
    rcases Nat.lt_or_ge (arenaStart + arenaSize) (2 ^ c.width) with hlt | hge
    · rw [rounddown, addW_of_lt hlt, Nat.mod_eq_of_lt (by omega)]
    · rw [show arenaStart + arenaSize = 2 ^ c.width by omega, Nat.div_mul_cancel c.pageSize_dvd,
        rounddown, addW, show arenaStart + arenaSize = 2 ^ c.width by omega, Nat.mod_self,
        Nat.zero_div, Nat.zero_mul]
  refine ⟨T, m, hdvd, by omega, by omega, by omega, by omega, hup, ?_⟩
  rw [hdown, hup, subW_mod (by omega)]

/-- The distance from the end of the map to the first page. -/
theorem useful_iff {arenaStart S pages m : ℕ} (hm : m * c.pageSize < 2 ^ c.width)
    (hle : pages ≤ m) (hroom : pages ≤ S - arenaStart) (hS : arenaStart ≤ S)
    (hshort : S - arenaStart < m + c.pageSize) (has : arenaStart < 2 ^ c.width)
    (htop : S + pages * c.pageSize ≤ 2 ^ c.width) :
    ∃ r, pages ≤ r ∧ addW c.width arenaStart (roundup c.width pages 4) = arenaStart + r ∧
      (usefulDistance c.width (subW c.width (S % 2 ^ c.width) (arenaStart + r)) →
        64 ≤ S - (arenaStart + r) ∧ arenaStart + r ≤ S ∧
          subW c.width (S % 2 ^ c.width) (arenaStart + r) = S - (arenaStart + r)) := by
  obtain ⟨hsmall, hhalf⟩ := c.pageSize_add_lt hm
  have h4 := c.four_le_pageSize
  have hP4 : pages = 0 ∨ c.pageSize ≤ pages * c.pageSize := by
    rcases Nat.eq_zero_or_pos pages with h | h
    · exact .inl h
    · exact .inr (Nat.le_mul_of_pos_left _ h)
  have hr : roundup c.width pages 4 = (pages + 3) / 4 * 4 := by
    rw [roundup, addW_of_lt (by omega)]
  have hlt : arenaStart + (pages + 3) / 4 * 4 < 2 ^ c.width := by omega
  have hr3 : pages ≤ (pages + 3) / 4 * 4 ∧ (pages + 3) / 4 * 4 ≤ pages + 3 := by omega
  refine ⟨(pages + 3) / 4 * 4, hr3.1, by rw [hr, addW_of_lt hlt], fun hu => ?_⟩
  generalize (pages + 3) / 4 * 4 = r at *
  rcases Nat.lt_or_ge S (arenaStart + r) with hneg | hpos
  · -- the distance is less than 0 by 3 at most
    have := subW_neg (w := c.width) (a := S) (d := arenaStart + r - S) (by omega) (by omega)
    rw [Nat.add_sub_cancel' (by omega), Nat.mod_eq_of_lt hlt] at this
    rw [this] at hu
    have := hu.1
    omega
  · have := subW_mod (w := c.width) (a := arenaStart + r) (d := S - (arenaStart + r)) (by omega)
    rw [Nat.add_sub_cancel' hpos, Nat.mod_eq_of_lt hlt] at this
    rw [this] at hu
    exact ⟨hu.2, hpos, this⟩


/-- An arena whose map and unaligned area are in front of its pages, or elsewhere. -/
theorem divided_of_front {old n : Arena} {S arenaStart arenaSize : ℕ} {map : ℕ × ℕ}
    (htop : arenaStart + arenaSize ≤ 2 ^ c.width) (hdvd : c.pageSize ∣ S) (hS : arenaStart ≤ S)
    (hend : S + n.pages * c.pageSize ≤ arenaStart + arenaSize) (hbase : n.base = S % 2 ^ c.width)
    (hsize : n.size = n.pages * c.pageSize)
    (hfront : ∀ a, hits a (n.map, n.pages) + hits a (n.unalignedArea, n.unalignedSize) ≤
      hits a (arenaStart, S - arenaStart) + hits a map +
        hits a (old.unalignedArea, old.unalignedSize))
    (harea : (old.unalignedArea ≠ 0 → 0 < old.unalignedSize) →
      n.unalignedArea ≠ 0 → 0 < n.unalignedSize) :
    Divided c old n (arenaStart, arenaSize) map := by
  have hwrap : S % 2 ^ c.width = S ∨ n.size = 0 ∧ S % 2 ^ c.width = 0 := by
    rcases Nat.lt_or_ge S (2 ^ c.width) with h | h
    · exact .inl (Nat.mod_eq_of_lt h)
    · exact .inr ⟨by omega, by rw [show S = 2 ^ c.width by omega, Nat.mod_self]⟩
  rw [← hbase] at hwrap
  refine ⟨hsize, ?_, by omega, ?_, fun a => ?_, harea⟩
  · rw [hbase]
    exact (Nat.dvd_mod_iff c.pageSize_dvd).2 hdvd
  · rcases hwrap with h | h
    · exact .inr ⟨by simp only; omega, by simp only; omega⟩
    · refine .inl ((Nat.mul_eq_zero.1 (hsize.symm.trans h.1)).resolve_right ?_)
      exact c.pageSize_pos.ne'
  · have hpages : hits a (n.base, n.size) + hits a (arenaStart, S - arenaStart) ≤
        hits a (arenaStart, arenaSize) := by
      simp only [hits]
      split_ifs <;> omega
    have := hfront a
    rw [Arena.pieces, cover_cons, cover_cons, cover_cons, cover_nil]
    omega

/-- **`novm_init_helper` divides what it is given.** -/
theorem divided_arenaOf {n : Arena} {arenaStart arenaSize defaultMap defaultMapSize : ℕ}
    (has : arenaStart < 2 ^ c.width) (hsz : arenaSize < 2 ^ c.width)
    (hfits : Fits c arenaStart arenaSize) :
    Divided c n (arenaOf c n arenaStart arenaSize defaultMap defaultMapSize)
      (arenaStart, arenaSize) (defaultMap, defaultMapSize) := by
  obtain ⟨T, m, hdvd, hle, hlt, hend, hm, hup, hsize⟩ := boundaries hsz hfits
  have htop := hfits.1
  rw [arenaOf, hsize, hup, Nat.mul_div_cancel _ c.pageSize_pos]
  by_cases hmap : defaultMap = 0 ∨ defaultMapSize < m
  · obtain ⟨k, hk, hcarve, hroom, hlast⟩ := carve_cases has m T hle (by omega) hm
    have hkm : T + k * c.pageSize + (m - k) * c.pageSize = T + m * c.pageSize := by
      rw [Nat.add_assoc, ← Nat.add_mul, Nat.add_sub_cancel' hk]
    have hshort : T + k * c.pageSize - arenaStart < m + c.pageSize := by
      rcases hlast with rfl | hlast
      · rw [Nat.zero_mul]
        omega
      · exact hlast
    have hle' : T ≤ T + k * c.pageSize := Nat.le_add_right ..
    have hdvd' : c.pageSize ∣ T + k * c.pageSize := Nat.dvd_add hdvd (Nat.dvd_mul_left ..)
    obtain ⟨r, hr, harea, huseful⟩ := useful_iff hm (Nat.sub_le m k) hroom (by omega) hshort has
      (by omega)
    simp only [if_pos hmap, hcarve, harea]
    by_cases hu : usefulDistance c.width
        (subW c.width ((T + k * c.pageSize) % 2 ^ c.width) (arenaStart + r))
    · obtain ⟨h64, hrS, hd⟩ := huseful hu
      rw [if_pos hu, hd]
      refine divided_of_front htop hdvd' (by omega) (by simp only; omega) rfl rfl (fun a => ?_)
        fun _ _ => by simp only; omega
      simp only [hits]
      split_ifs <;> omega
    · rw [if_neg hu]
      refine divided_of_front htop hdvd' (by omega) (by simp only; omega) rfl rfl (fun a => ?_) id
      simp only [hits]
      split_ifs <;> omega
  · have hd : subW c.width (T % 2 ^ c.width) arenaStart = T - arenaStart := by
      have hPw := Nat.le_of_dvd (Nat.two_pow_pos _) c.pageSize_dvd
      have := subW_mod (a := arenaStart) (show T - arenaStart < 2 ^ c.width by omega)
      rwa [Nat.add_sub_cancel' hle, Nat.mod_eq_of_lt has] at this
    simp only [if_neg hmap, hd]
    have hsub : m ≤ defaultMapSize := by omega
    by_cases hu : minimumUsefulUnalignedSize ≤ T - arenaStart
    · have : 64 ≤ T - arenaStart := hu
      rw [if_pos hu]
      refine divided_of_front htop hdvd hle (by simp only; omega) rfl rfl (fun a => ?_)
        fun _ _ => by simp only; omega
      simp only [hits]
      split_ifs <;> omega
    · rw [if_neg hu]
      refine divided_of_front htop hdvd hle (by simp only; omega) rfl rfl (fun a => ?_) id
      simp only [hits]
      split_ifs <;> omega

end Novm
end LittleKernel
