/-
# Who owns the pages

The page allocator of `kernel/novm/novm.c` with the ledger of its callers: the memory the
arenas were given, the unaligned areas that were handed out, and the ranges that are
allocated.  An owner writes what it likes to its memory.

`novm_page_ownership` says that in a run of calls clear of four defects no byte of memory has
two owners, the maps included, and that a call that fails had to fail and did nothing.  The
defects: `novm_alloc_specific_pages` marks pages while it still checks the others, looks
neither at where the arena ends nor at whether the address is that of a page; an arena without
a page boundary in it has a size below 0; a page at the address 0 is handed out as `NULL`; and
in an arena up to the top of the address space no address is found again.
-/

import LittleKernel.Kernel.Novm.Basic
import LittleKernel.Lib.Machine
import Mathlib.Algebra.Order.BigOperators.Group.Finset

namespace LittleKernel
namespace Novm

open Machine Ranges Function

/-- The allocator and the ledger. -/
structure World where
  code : State
  live : List (ℕ × ℕ)
  handed : List (ℕ × ℕ)
  given : List (ℕ × ℕ)

/-- The calls, and the writes of owners. -/
inductive Op where
  | init (memStart memSize map defaultMapSize : ℕ)
  | addArena (arenaStart arenaSize : ℕ)
  | allocPages (pages bitmap : ℕ)
  | allocUnaligned
  | allocSpecificPages (address pages : ℕ)
  | freePages (address pages : ℕ)
  | write (address : ℕ) (value : UInt8)

/-- What a call returns. -/
inductive Out where
  | done
  | address (a : ℕ)
  | area (a size : ℕ)
  | status (st : Status)

/-- Before the first call. -/
def boot (mem : ℕ → UInt8) : World := ⟨⟨fun _ => .unused, mem⟩, [], [], []⟩

variable (c : Config)

/-- The ledger with an allocation, if it is one. -/
def World.grant (w : World) (s : State) (a pages : ℕ) : World :=
  { w with code := s, live := if a = 0 then w.live else (a, pages * c.pageSize) :: w.live }

/-- One call. -/
def step (w : World) : Op → Option (World × Out)
  | .init memStart memSize map defaultMapSize =>
    some ({ w with
      code := Novm.init c w.code memStart memSize map defaultMapSize
      given := (memStart, memSize) :: (map, defaultMapSize) :: w.given }, .done)
  | .addArena arenaStart arenaSize =>
    (Novm.addArena c w.code arenaStart arenaSize).map fun s =>
      ({ w with code := s, given := (arenaStart, arenaSize) :: w.given }, .done)
  | .allocPages pages bitmap =>
    let r := Novm.allocPages c w.code pages bitmap
    some (w.grant c r.2 r.1 pages, .address r.1)
  | .allocUnaligned =>
    let r := Novm.allocUnaligned c w.code
    some (if (w.code.arena 0).unalignedArea ≠ 0 then
        { w with code := r.2.2, handed := (r.1, r.2.1) :: w.handed }
      else w.grant c r.2.2 r.1 1, .area r.1 r.2.1)
  | .allocSpecificPages address pages =>
    let r := Novm.allocSpecificPages c w.code address pages
    some ({ w with
      code := r.2
      live := if r.1 = .noError ∧ 0 < pages then (address, pages * c.pageSize) :: w.live
        else w.live }, .status r.1)
  | .freePages address pages =>
    some ({ w with
      code := Novm.freePages c w.code address pages
      live := if pages = 0 then w.live else w.live.flatMap (cut address (pages * c.pageSize)) },
      .done)
  | .write address value =>
    some ({ w with code.mem := update w.code.mem address value }, .done)

/-- The state a call leaves. -/
def next (w : World) (op : Op) : Option World := (step c w op).map Prod.fst

/-- What the callers owe the allocator: memory that nobody has been given before, and no frees
and no writes of what they do not own. -/
def Owed (w : World) : Op → Prop
  | .init memStart memSize map defaultMapSize =>
    (w.code.arena 0).pages = 0 ∧ memStart < 2 ^ c.width ∧ memSize < 2 ^ c.width ∧
      ((memStart, memSize) :: (map, defaultMapSize) :: w.given).Pairwise Apart
  | .addArena arenaStart arenaSize =>
    arenaStart < 2 ^ c.width ∧ arenaSize < 2 ^ c.width ∧
      ((arenaStart, arenaSize) :: w.given).Pairwise Apart
  | .freePages address pages => pages = 0 ∨ c.pageSize ∣ address ∧
      ∃ q ∈ w.live, q.1 ≤ address ∧ address + pages * c.pageSize ≤ q.1 + q.2
  | .write address _ => ∃ q ∈ w.live ++ w.handed, q.1 ≤ address ∧ address < q.1 + q.2
  | _ => True

instance (q r : ℕ × ℕ) : Decidable (Apart q r) := inferInstanceAs (Decidable (_ ∨ _))

instance (w : World) : ∀ op, Decidable (Owed c w op)
  | .init .. | .addArena .. => inferInstanceAs (Decidable (_ ∧ _))
  | .freePages .. => inferInstanceAs (Decidable (_ ∨ _))
  | .write .. => inferInstanceAs (Decidable (∃ q ∈ w.live ++ w.handed, _))
  | .allocPages .. | .allocUnaligned | .allocSpecificPages .. => .isTrue trivial

/-- An arena in front of the arena `i` has room. -/
def RoomBefore (s : State) (pages bitmap i : ℕ) : Prop :=
  ∃ j < i, bitmap.testBit j = true ∧ ∃ k < (s.arena j).pages, Vacant s.mem (s.arena j) pages k

instance (s : State) (pages bitmap i : ℕ) : Decidable (RoomBefore s pages bitmap i) :=
  inferInstanceAs (Decidable (∃ j < i, _))

/-- The first fit is not the page at the address 0. -/
def OffZero (s : State) (pages bitmap : ℕ) : Prop :=
  ∀ i < c.maxArenas, bitmap.testBit i = true → (s.arena i).base = 0 → 0 < pages →
    Vacant s.mem (s.arena i) pages 0 → RoomBefore s pages bitmap i

instance (s : State) (pages bitmap : ℕ) : Decidable (OffZero c s pages bitmap) :=
  inferInstanceAs (Decidable (∀ i < c.maxArenas, _))

/-- The call is clear of the defects. -/
def Meets (w : World) : Op → Prop
  | .init memStart memSize _ _ => Fits c memStart memSize
  | .addArena arenaStart arenaSize => Fits c arenaStart arenaSize
  | .allocPages pages bitmap => OffZero c w.code pages bitmap
  | .allocUnaligned => (w.code.arena 0).unalignedArea ≠ 0 ∨ OffZero c w.code 1 novmArenaAny
  | .allocSpecificPages address pages => ∀ i ∈ findArena c w.code address,
      let n := w.code.arena i
      let index := (address - n.base) / c.pageSize
      pages = 0 ∨ w.code.mem (n.map + index) ≠ 0 ∨
        c.pageSize ∣ address ∧ Vacant w.code.mem n pages index
  | .freePages address pages => pages = 0 ∨ (findArena c w.code address).isSome
  | .write _ _ => True

instance (w : World) : ∀ op, Decidable (Meets c w op)
  | .init .. | .addArena .. => inferInstanceAs (Decidable (Fits ..))
  | .allocPages .. => inferInstanceAs (Decidable (OffZero ..))
  | .allocUnaligned | .freePages .. => inferInstanceAs (Decidable (_ ∨ _))
  | .allocSpecificPages address _ => inferInstanceAs (Decidable (∀ i ∈ findArena c w.code address, _))
  | .write .. => .isTrue trivial

/-- `pages` pages of the arena side by side, and at least one, that nobody owns. -/
def FreeRun (w : World) (n : Arena) (pages : ℕ) : Prop :=
  0 < pages ∧ ∃ k, k + pages ≤ n.pages ∧
    ∀ q ∈ w.live, Apart q (n.base + k * c.pageSize, pages * c.pageSize)

/-- No byte has two owners. -/
structure Sound (w : World) : Prop where
  apart : (w.live ++ w.handed).Pairwise Apart
  inside : ∀ q ∈ w.live, ∃ i < c.maxArenas, (w.code.arena i).base ≤ q.1 ∧
    q.1 + q.2 ≤ (w.code.arena i).base + (w.code.arena i).pages * c.pageSize
  memory : ∀ q ∈ w.live, ∃ g ∈ w.given, g.1 ≤ q.1 ∧ q.1 + q.2 ≤ g.1 + g.2
  off_map : ∀ q ∈ w.live ++ w.handed, ∀ i < c.maxArenas, ∀ k < (w.code.arena i).pages,
    ¬(q.1 ≤ (w.code.arena i).map + k ∧ (w.code.arena i).map + k < q.1 + q.2)

/-- A failing call had to fail, where it allocates any pages, and it did nothing. -/
def FailsFor (w w' : World) : Op → Out → Prop
  | .allocPages pages bitmap, .address a => a = 0 → w'.code = w.code ∧
      ∀ i < c.maxArenas, bitmap.testBit i = true → ¬FreeRun c w (w.code.arena i) pages
  | .allocUnaligned, .area a _ => a = 0 → w'.code = w.code ∧
      ∀ i < c.maxArenas, ¬FreeRun c w (w.code.arena i) 1
  | .allocSpecificPages _ _, .status st => st ≠ .noError → w'.code = w.code
  | _, _ => True

/-- What a call owes its callers. -/
def Correct (w : World) (op : Op) : Prop :=
  ∀ w' out, step c w op = some (w', out) → Sound c w' ∧ FailsFor c w w' op out

variable {c}

/-! ### Memory with one use -/

/-- How many uses the arenas have for an address. -/
def uses (c : Config) (arena : ℕ → Arena) (a : ℕ) : ℕ :=
  ∑ i ∈ Finset.range c.maxArenas, cover (arena i).pieces a

theorem cover_pieces (n : Arena) (a : ℕ) : cover n.pieces a =
    hits a (n.base, n.size) + (hits a (n.map, n.pages) + hits a (n.unalignedArea, n.unalignedSize)) := by
  rw [Arena.pieces, cover_cons, cover_cons, cover_cons, cover_nil, Nat.add_zero]

theorem hits_eq_one {a : ℕ} {q : ℕ × ℕ} (h : q.1 ≤ a ∧ a < q.1 + q.2) : hits a q = 1 := if_pos h

theorem cover_le_uses (arena : ℕ → Arena) {i : ℕ} (hi : i < c.maxArenas) (a : ℕ) :
    cover (arena i).pieces a ≤ uses c arena a :=
  Finset.single_le_sum (f := fun i => cover (arena i).pieces a) (fun _ _ => Nat.zero_le _)
    (Finset.mem_range.2 hi)

theorem cover_add_cover_le_uses (arena : ℕ → Arena) {i j : ℕ} (hi : i < c.maxArenas)
    (hj : j < c.maxArenas) (hij : i ≠ j) (a : ℕ) :
    cover (arena i).pieces a + cover (arena j).pieces a ≤ uses c arena a := by
  rw [← Finset.sum_pair (f := fun i => cover (arena i).pieces a) hij]
  refine Finset.sum_le_sum_of_subset fun x hx => ?_
  rcases Finset.mem_insert.1 hx with rfl | hx
  · exact Finset.mem_range.2 hi
  · exact Finset.mem_range.2 (Finset.mem_singleton.1 hx ▸ hj)

/-- One arena for another. -/
theorem uses_update (arena : ℕ → Arena) {i : ℕ} (hi : i < c.maxArenas) (n : Arena) (a : ℕ) :
    uses c (update arena i n) a + cover (arena i).pieces a = uses c arena a + cover n.pieces a := by
  have hmem := Finset.mem_range.2 hi
  have hrest : ∑ j ∈ (Finset.range c.maxArenas).erase i,
      cover (update arena i n j).pieces a =
        ∑ j ∈ (Finset.range c.maxArenas).erase i, cover (arena j).pieces a :=
    Finset.sum_congr rfl fun j hj => by rw [update_of_ne (Finset.ne_of_mem_erase hj)]
  rw [uses, uses, ← Finset.add_sum_erase _ _ hmem, ← Finset.add_sum_erase _ _ hmem, hrest,
    update_self]
  omega

section Once

variable {arena : ℕ → Arena} (h : ∀ a, uses c arena a ≤ 1) {i j : ℕ} (hi : i < c.maxArenas)
  (hj : j < c.maxArenas)

include h hi hj

/-- Two arenas have no page in common. -/
theorem page_unique {a : ℕ} (h₁ : (arena i).base ≤ a ∧ a < (arena i).base + (arena i).size)
    (h₂ : (arena j).base ≤ a ∧ a < (arena j).base + (arena j).size) : i = j := by
  by_contra hij
  have := cover_add_cover_le_uses arena hi hj hij a
  rw [cover_pieces, cover_pieces, hits_eq_one (q := ((arena i).base, _)) h₁,
    hits_eq_one (q := ((arena j).base, _)) h₂] at this
  have := h a
  omega

/-- The maps of two arenas have no entry in common. -/
theorem map_unique {k l : ℕ} (hk : k < (arena i).pages) (hl : l < (arena j).pages)
    (hkl : (arena i).map + k = (arena j).map + l) : i = j ∧ k = l := by
  suffices hij : i = j by
    subst hij
    exact ⟨rfl, by omega⟩
  by_contra hij
  have := cover_add_cover_le_uses arena hi hj hij ((arena i).map + k)
  rw [cover_pieces, cover_pieces, hits_eq_one (q := ((arena i).map, _)) ⟨by simp, by simpa using hk⟩,
    hits_eq_one (q := ((arena j).map, _)) ⟨by simp only; omega, by simp only; omega⟩] at this
  have := h ((arena i).map + k)
  omega

/-- No page has an entry of a map in it. -/
theorem map_off_pages {k : ℕ} (hk : k < (arena i).pages) :
    ¬((arena j).base ≤ (arena i).map + k ∧ (arena i).map + k < (arena j).base + (arena j).size) := by
  intro hpage
  have hmap : hits ((arena i).map + k) ((arena i).map, (arena i).pages) = 1 :=
    hits_eq_one ⟨by simp, by simpa using hk⟩
  have hpage : hits ((arena i).map + k) ((arena j).base, (arena j).size) = 1 := hits_eq_one hpage
  have hone := h ((arena i).map + k)
  rcases eq_or_ne i j with rfl | hij
  · have := cover_le_uses arena hi ((arena i).map + k)
    rw [cover_pieces] at this
    omega
  · have := cover_add_cover_le_uses arena hi hj hij ((arena i).map + k)
    rw [cover_pieces, cover_pieces] at this
    omega

end Once

/-! ### The invariant -/

/-- A range of whole pages of the arena. -/
structure Paged (c : Config) (n : Arena) (q : ℕ × ℕ) : Prop where
  start : n.base ≤ q.1
  stop : q.1 + q.2 ≤ n.base + n.size
  aligned : c.pageSize ∣ q.1
  whole : c.pageSize ∣ q.2
  pos : 0 < q.2

/-- The memory of the arenas is used once, and the maps say which pages are allocated. -/
structure Inv (c : Config) (w : World) : Prop where
  size_eq : ∀ i, (w.code.arena i).size = (w.code.arena i).pages * c.pageSize
  aligned : ∀ i, c.pageSize ∣ (w.code.arena i).base
  top : ∀ i, (w.code.arena i).base + (w.code.arena i).size ≤ 2 ^ c.width
  inside : ∀ i, (w.code.arena i).pages = 0 ∨ ∃ g ∈ w.given, g.1 ≤ (w.code.arena i).base ∧
    (w.code.arena i).base + (w.code.arena i).size ≤ g.1 + g.2
  once : ∀ a, uses c w.code.arena a + cover w.handed a ≤ cover w.given a
  apart : w.given.Pairwise Apart
  area : ∀ i, (w.code.arena i).unalignedArea ≠ 0 → 0 < (w.code.arena i).unalignedSize
  handed_pos : ∀ q ∈ w.handed, 0 < q.2
  place : ∀ q ∈ w.live, ∃ i < c.maxArenas, Paged c (w.code.arena i) q
  live_once : ∀ a, cover w.live a ≤ 1
  marked : ∀ i < c.maxArenas, ∀ k < (w.code.arena i).pages,
    w.code.mem ((w.code.arena i).map + k) ≠ 0 ↔
      0 < cover w.live ((w.code.arena i).base + k * c.pageSize)

theorem inv_boot (mem : ℕ → UInt8) : Inv c (boot mem) := by
  refine ⟨fun _ => (Nat.zero_mul _).symm, fun _ => Nat.dvd_zero _, fun _ => Nat.zero_le _,
    fun _ => .inl rfl, fun a => ?_, .nil, fun _ h => absurd rfl h, fun q hq => ?_, fun q hq => ?_,
    fun _ => Nat.zero_le _, fun i _ k hk => ?_⟩
  · have : ∀ i, cover ((boot mem).code.arena i).pieces a = 0 := fun _ => by
      simp [boot, cover_pieces, Arena.unused, hits]
    rw [uses, Finset.sum_eq_zero fun i _ => this i]
    rfl
  · simp [boot] at hq
  · simp [boot] at hq
  · simp [boot, Arena.unused] at hk

section Invariant

variable {w : World} {i : ℕ}

theorem Inv.sum_le_one (h : Inv c w) (a : ℕ) : uses c w.code.arena a + cover w.handed a ≤ 1 :=
  (h.once a).trans (cover_le_one h.apart a)

theorem Inv.uses_le_one (h : Inv c w) (a : ℕ) : uses c w.code.arena a ≤ 1 :=
  (Nat.le_add_right ..).trans (h.sum_le_one a)

/-- An address of a page. -/
theorem Inv.page_mem (h : Inv c w) {k a : ℕ} (hk : k < (w.code.arena i).pages)
    (ha : (w.code.arena i).base + k * c.pageSize ≤ a)
    (ha' : a < (w.code.arena i).base + k * c.pageSize + c.pageSize) :
    (w.code.arena i).base ≤ a ∧ a < (w.code.arena i).base + (w.code.arena i).size := by
  have hsucc : (k + 1) * c.pageSize ≤ (w.code.arena i).pages * c.pageSize :=
    Nat.mul_le_mul_right _ hk
  rw [← h.size_eq, Nat.succ_mul] at hsucc
  omega

/-- **Pages are allocated as a whole.** -/
theorem Inv.live_page (h : Inv c w) {k a : ℕ} (ha : (w.code.arena i).base + k * c.pageSize ≤ a)
    (ha' : a < (w.code.arena i).base + k * c.pageSize + c.pageSize) :
    0 < cover w.live a ↔ 0 < cover w.live ((w.code.arena i).base + k * c.pageSize) := by
  have hP := c.pageSize_pos
  have hdvd : c.pageSize ∣ (w.code.arena i).base + k * c.pageSize :=
    Nat.dvd_add (h.aligned i) (Nat.dvd_mul_left ..)
  -- a range of whole pages with one address of the page has all of them
  suffices hpage : ∀ q ∈ w.live, (q.1 ≤ a ∧ a < q.1 + q.2 ↔
      q.1 ≤ (w.code.arena i).base + k * c.pageSize ∧
        (w.code.arena i).base + k * c.pageSize < q.1 + q.2) by
    rw [cover_pos, cover_pos]
    exact exists_congr fun q => and_congr_right fun hq => hpage q hq
  intro q hq
  obtain ⟨j, -, hj⟩ := h.place q hq
  have hend : c.pageSize ∣ q.1 + q.2 := Nat.dvd_add hj.aligned hj.whole
  refine ⟨fun hin => ⟨?_, by omega⟩, fun hin => ⟨by omega, ?_⟩⟩
  · exact Nat.le_of_lt_add_of_dvd (by omega) hj.aligned hdvd
  · have := Nat.le_of_lt_add_of_dvd (show (w.code.arena i).base + k * c.pageSize + c.pageSize <
      q.1 + q.2 + c.pageSize by omega) (Nat.dvd_add hdvd (dvd_refl _)) hend
    omega

/-- **A run of free pages is one of entries that are 0.** -/
theorem Inv.vacant_iff (h : Inv c w) (hi : i < c.maxArenas) {pages k : ℕ} :
    Vacant w.code.mem (w.code.arena i) pages k ↔ k + pages ≤ (w.code.arena i).pages ∧
      ∀ a, (w.code.arena i).base + k * c.pageSize ≤ a →
        a < (w.code.arena i).base + (k + pages) * c.pageSize → cover w.live a = 0 := by
  have hP := c.pageSize_pos
  refine and_congr_right fun hle => ⟨fun hv a ha ha' => ?_, fun hfree j hj => ?_⟩
  · -- the page of the address
    obtain ⟨j, hj, h₁, h₂⟩ : ∃ j < pages, (w.code.arena i).base + (k + j) * c.pageSize ≤ a ∧
        a < (w.code.arena i).base + (k + j) * c.pageSize + c.pageSize := by
      have hdiv := Nat.div_add_mod (a - ((w.code.arena i).base + k * c.pageSize)) c.pageSize
      have hmod := Nat.mod_lt (a - ((w.code.arena i).base + k * c.pageSize)) hP
      refine ⟨(a - ((w.code.arena i).base + k * c.pageSize)) / c.pageSize, ?_, ?_⟩
      · rw [Nat.div_lt_iff_lt_mul hP]
        rw [Nat.add_mul] at ha'
        omega
      · rw [Nat.mul_comm] at hdiv
        rw [Nat.add_mul]
        omega
    by_contra hne
    refine (h.marked i hi (k + j) (by omega)).2 ?_ (by rw [← Nat.add_assoc]; exact hv j hj)
    exact (h.live_page h₁ h₂).1 (Nat.pos_of_ne_zero hne)
  · by_contra hne
    rw [Nat.add_assoc] at hne
    have hpos := (h.marked i hi (k + j) (by omega)).1 hne
    have hstep : (k + j + 1) * c.pageSize ≤ (k + pages) * c.pageSize :=
      Nat.mul_le_mul_right _ (by omega)
    rw [Nat.succ_mul, Nat.add_mul k j] at hstep
    rw [Nat.add_mul] at hpos
    have := hfree ((w.code.arena i).base + (k * c.pageSize + j * c.pageSize))
      (by omega) (by omega)
    omega

theorem Inv.freeRun_iff (h : Inv c w) (hi : i < c.maxArenas) {pages : ℕ} :
    FreeRun c w (w.code.arena i) pages ↔
      0 < pages ∧ ∃ k, Vacant w.code.mem (w.code.arena i) pages k := by
  refine and_congr_right fun hp => exists_congr fun k => ?_
  rw [h.vacant_iff hi]
  refine and_congr_right fun hle => ⟨fun hq a ha ha' => ?_, fun hfree q hq => ?_⟩
  · by_contra hne
    obtain ⟨q, hmem, hin⟩ := cover_pos.1 (Nat.pos_of_ne_zero hne)
    rw [Nat.add_mul] at ha'
    rcases hq q hmem with h | h <;> simp only at h <;> omega
  · by_contra hmeet
    have hmeet : ¬(q.1 + q.2 ≤ (w.code.arena i).base + k * c.pageSize ∨
      (w.code.arena i).base + k * c.pageSize + pages * c.pageSize ≤ q.1) := hmeet
    obtain ⟨j, -, hj⟩ := h.place q hq
    have hpos := hj.pos
    have hP : 0 < pages * c.pageSize := Nat.mul_pos hp c.pageSize_pos
    have := hfree (max q.1 ((w.code.arena i).base + k * c.pageSize)) (by omega)
      (by rw [Nat.add_mul]; omega)
    have hcover := cover_pos.2 ⟨q, hq, show q.1 ≤ max q.1
      ((w.code.arena i).base + k * c.pageSize) by omega, by omega⟩
    omega

/-- **The invariant says that no byte has two owners.** -/
theorem Inv.sound (h : Inv c w) : Sound c w := by
  have hlive : ∀ a, 0 < cover w.live a → 0 < uses c w.code.arena a := fun a ha => by
    obtain ⟨q, hq, h₁, h₂⟩ := cover_pos.1 ha
    obtain ⟨i, hi, hq⟩ := h.place q hq
    have := cover_le_uses w.code.arena hi a
    rw [cover_pieces, hits_eq_one (q := ((w.code.arena i).base, (w.code.arena i).size))
      ⟨by have := hq.start; simp only; omega, by have := hq.stop; simp only; omega⟩] at this
    omega
  refine ⟨pairwise_apart_of_cover (fun q hq => ?_) fun a => ?_, fun q hq => ?_, fun q hq => ?_,
    fun q hq i hi k hk hin => ?_⟩
  · rcases List.mem_append.1 hq with hq | hq
    · obtain ⟨i, -, hq⟩ := h.place q hq
      exact hq.pos
    · exact h.handed_pos q hq
  · have hone := h.live_once a
    have hsum := h.sum_le_one a
    have hlive := hlive a
    rw [cover_append]
    omega
  · obtain ⟨i, hi, hq⟩ := h.place q hq
    exact ⟨i, hi, hq.start, h.size_eq i ▸ hq.stop⟩
  · obtain ⟨i, hi, hq⟩ := h.place q hq
    have hstart := hq.start
    have hstop := hq.stop
    have hpos := hq.pos
    rcases h.inside i with hzero | ⟨g, hg, h₁, h₂⟩
    · have := h.size_eq i
      rw [hzero, Nat.zero_mul] at this
      omega
    · exact ⟨g, hg, by omega, by omega⟩
  · rcases List.mem_append.1 hq with hq | hq
    · obtain ⟨j, hj, hq⟩ := h.place q hq
      have hstart := hq.start
      have hstop := hq.stop
      exact map_off_pages h.uses_le_one hi hj hk ⟨by omega, by omega⟩
    · have hpos := cover_pos.2 ⟨q, hq, hin⟩
      have := cover_le_uses w.code.arena hi ((w.code.arena i).map + k)
      rw [cover_pieces, hits_eq_one (q := ((w.code.arena i).map, (w.code.arena i).pages))
        ⟨by simp, by simpa using hk⟩] at this
      have := h.sum_le_one ((w.code.arena i).map + k)
      omega

/-- Two addresses of pages in the order of their indices. -/
theorem page_le_iff {c : Config} {b k l : ℕ} :
    b + k * c.pageSize ≤ b + l * c.pageSize ↔ k ≤ l := by
  rw [Nat.add_le_add_iff_left, Nat.mul_le_mul_right_iff c.pageSize_pos]

/-- **Marks and ledger together.**  The entries of `m` pages are set as the ledger says. -/
theorem Inv.mark (h : Inv c w) (hi : i < c.maxArenas) {lo m : ℕ} {v : UInt8}
    {live : List (ℕ × ℕ)} (hle : lo + m ≤ (w.code.arena i).pages)
    (hplace : ∀ q ∈ live, ∃ j < c.maxArenas, Paged c (w.code.arena j) q)
    (honce : ∀ a, cover live a ≤ 1)
    (hin : ∀ a, (w.code.arena i).base + lo * c.pageSize ≤ a →
      a < (w.code.arena i).base + (lo + m) * c.pageSize → (v ≠ 0 ↔ 0 < cover live a))
    (hout : ∀ a, a < (w.code.arena i).base + lo * c.pageSize ∨
      (w.code.arena i).base + (lo + m) * c.pageSize ≤ a → (0 < cover live a ↔ 0 < cover w.live a)) :
    Inv c { w with
      code.mem := memset w.code.mem ((w.code.arena i).map + lo) v m
      live := live } := by
  refine ⟨h.size_eq, h.aligned, h.top, h.inside, h.once, h.apart, h.area, h.handed_pos, hplace,
    honce, fun j hj k hk => ?_⟩
  have hP := c.pageSize_pos
  have hpage := h.page_mem hk le_rfl (by omega)
  by_cases hset : j = i ∧ lo ≤ k ∧ k < lo + m
  · obtain ⟨rfl, h₁, h₂⟩ := hset
    have : memset w.code.mem ((w.code.arena j).map + lo) v m ((w.code.arena j).map + k) = v :=
      if_pos ⟨by omega, by omega⟩
    simp only [this]
    exact hin _ (page_le_iff.2 h₁) (Nat.lt_of_not_le fun h => by
      have := (page_le_iff (c := c)).1 h
      omega)
  · have hmem : memset w.code.mem ((w.code.arena i).map + lo) v m ((w.code.arena j).map + k) =
        w.code.mem ((w.code.arena j).map + k) := by
      refine if_neg fun hset' => hset ?_
      obtain ⟨rfl, hkl⟩ := map_unique h.uses_le_one hj hi hk
        (show (w.code.arena j).map + k - (w.code.arena i).map < (w.code.arena i).pages by omega)
        (by omega)
      exact ⟨rfl, by omega, by omega⟩
    simp only [hmem]
    rw [h.marked j hj k hk]
    refine (hout ((w.code.arena j).base + k * c.pageSize) ?_).symm
    by_contra hmeet
    have hend : (lo + m) * c.pageSize ≤ (w.code.arena i).pages * c.pageSize :=
      Nat.mul_le_mul_right _ hle
    have hsize := h.size_eq i
    have hij : j = i := page_unique h.uses_le_one hj hi hpage (by omega)
    subst hij
    have hlo : lo ≤ k := (page_le_iff (c := c)).1 (show (w.code.arena j).base + _ ≤ _ by omega)
    refine hset ⟨rfl, hlo, Nat.lt_of_not_le fun hkm => ?_⟩
    have := (page_le_iff (c := c) (b := (w.code.arena j).base)).2 hkm
    omega

/-- **Allocation of a vacant run.** -/
theorem Inv.take (h : Inv c w) (hi : i < c.maxArenas) {pages k : ℕ} (hp : 0 < pages)
    (hv : Vacant w.code.mem (w.code.arena i) pages k) :
    Inv c { w with
      code.mem := memset w.code.mem ((w.code.arena i).map + k) 1 pages
      live := ((w.code.arena i).base + k * c.pageSize, pages * c.pageSize) :: w.live } := by
  have hP := c.pageSize_pos
  obtain ⟨hle, hfree⟩ := (h.vacant_iff hi).1 hv
  have hend : (k + pages) * c.pageSize ≤ (w.code.arena i).pages * c.pageSize :=
    Nat.mul_le_mul_right _ hle
  have hsize := h.size_eq i
  rw [Nat.add_mul] at hend
  refine h.mark hi hle (fun q hq => ?_) (fun a => ?_) (fun a h₁ h₂ => ?_) fun a ha => ?_
  · rcases List.mem_cons.1 hq with rfl | hq
    · exact ⟨i, hi, by simp only; omega, by simp only; omega,
        Nat.dvd_add (h.aligned i) (Nat.dvd_mul_left ..), Nat.dvd_mul_left .., Nat.mul_pos hp hP⟩
    · exact h.place q hq
  · have hfree := hfree a
    have hone := h.live_once a
    rw [Nat.add_mul] at hfree
    rw [cover_cons, hits]
    split_ifs with ha
    · have := hfree ha.1 (by have := ha.2; simp only at this; omega)
      omega
    · omega
  · rw [Nat.add_mul] at h₂
    rw [cover_cons, hits_eq_one ⟨by simp only; omega, by simp only; omega⟩]
    exact ⟨fun _ => by omega, fun _ => by decide⟩
  · rw [Nat.add_mul] at ha
    rw [cover_cons, hits, if_neg (by simp only; omega), Nat.zero_add]

/-- What is left of a range of whole pages without some of them. -/
theorem Paged.cut {n : Arena} {q r : ℕ × ℕ} (h : Paged c n q) {p m : ℕ} (hp : c.pageSize ∣ p)
    (hm : c.pageSize ∣ m) (hr : r ∈ Ranges.cut p m q) : Paged c n r := by
  obtain ⟨hstart, hstop, haligned, hwhole, hpos⟩ := h
  have hend : c.pageSize ∣ q.1 + q.2 := Nat.dvd_add haligned hwhole
  rw [Ranges.cut] at hr
  split_ifs at hr with h₁ h₂ h₃ h₃
  · obtain rfl := List.mem_singleton.1 hr
    exact ⟨hstart, hstop, haligned, hwhole, hpos⟩
  · rcases List.mem_append.1 hr with hr | hr <;> obtain rfl := List.mem_singleton.1 hr
    · exact ⟨hstart, by simp only; omega, haligned, Nat.dvd_sub hp haligned, by simp only; omega⟩
    · exact ⟨by simp only; omega, by simp only; omega, Nat.dvd_add hp hm,
        Nat.dvd_sub hend (Nat.dvd_add hp hm), by simp only; omega⟩
  · rw [List.append_nil] at hr
    obtain rfl := List.mem_singleton.1 hr
    exact ⟨hstart, by simp only; omega, haligned, Nat.dvd_sub hp haligned, by simp only; omega⟩
  · rw [List.nil_append] at hr
    obtain rfl := List.mem_singleton.1 hr
    exact ⟨by simp only; omega, by simp only; omega, Nat.dvd_add hp hm,
      Nat.dvd_sub hend (Nat.dvd_add hp hm), by simp only; omega⟩
  · simp at hr

/-- **Freeing of pages that are owned.** -/
theorem Inv.release (h : Inv c w) (hi : i < c.maxArenas) {pages address : ℕ} {q : ℕ × ℕ}
    (hdvd : c.pageSize ∣ address) (hq : Paged c (w.code.arena i) q) (hlo : q.1 ≤ address)
    (hhi : address + pages * c.pageSize ≤ q.1 + q.2) :
    Inv c { w with
      code.mem := memset w.code.mem ((w.code.arena i).map +
        (address - (w.code.arena i).base) / c.pageSize) 0 pages
      live := w.live.flatMap (cut address (pages * c.pageSize)) } := by
  have hstart := hq.start
  have hstop := hq.stop
  have hsize := h.size_eq i
  obtain ⟨k, hk⟩ := Nat.dvd_sub hdvd (h.aligned i)
  have haddr : address = (w.code.arena i).base + k * c.pageSize := by
    rw [Nat.mul_comm k, ← hk]
    omega
  have hindex : (address - (w.code.arena i).base) / c.pageSize = k := by
    rw [hk, Nat.mul_div_cancel_left _ c.pageSize_pos]
  rw [hindex]
  have hle : k + pages ≤ (w.code.arena i).pages := by
    refine (Nat.mul_le_mul_right_iff c.pageSize_pos).1 ?_
    rw [Nat.add_mul]
    omega
  refine h.mark hi hle (fun r hr => ?_) (fun a => ?_) (fun a h₁ h₂ => ?_) fun a ha => ?_
  · obtain ⟨t, ht, hr⟩ := List.mem_flatMap.1 hr
    obtain ⟨j, hj, ht⟩ := h.place t ht
    exact ⟨j, hj, ht.cut hdvd (Nat.dvd_mul_left ..) hr⟩
  · have := h.live_once a
    rw [cover_flatMap_cut]
    split_ifs <;> omega
  · rw [Nat.add_mul] at h₂
    rw [cover_flatMap_cut, if_pos (by omega)]
    simp
  · rw [Nat.add_mul] at ha
    rw [cover_flatMap_cut, if_neg (by omega)]

end Invariant

/-! ### The calls -/

section Calls

variable {w : World}

/-- **A new arena.**  `given` is the ledger with what the arena is given. -/
theorem Inv.initHelper (h : Inv c w) {i arenaStart arenaSize : ℕ} {map : ℕ × ℕ}
    {given : List (ℕ × ℕ)} (hi : i < c.maxArenas) (hpages : (w.code.arena i).pages = 0)
    (has : arenaStart < 2 ^ c.width) (hsz : arenaSize < 2 ^ c.width)
    (hfits : Fits c arenaStart arenaSize) (happ : given.Pairwise Apart)
    (hsub : ∀ g ∈ w.given, g ∈ given) (hmem : (arenaStart, arenaSize) ∈ given)
    (hcover : ∀ a, cover given a = hits a (arenaStart, arenaSize) + hits a map + cover w.given a) :
    Inv c { w with
      code := Novm.initHelper c w.code i arenaStart arenaSize map.1 map.2
      given := given } := by
  have hd : Divided c (w.code.arena i) (arenaOf c (w.code.arena i) arenaStart arenaSize map.1 map.2)
      (arenaStart, arenaSize) map := divided_arenaOf has hsz hfits
  rw [Novm.initHelper]
  generalize arenaOf c (w.code.arena i) arenaStart arenaSize map.1 map.2 = n at hd ⊢
  have hold : ∀ a, cover (w.code.arena i).pieces a =
      hits a ((w.code.arena i).unalignedArea, (w.code.arena i).unalignedSize) := fun a => by
    have hsize := h.size_eq i
    rw [hpages, Nat.zero_mul] at hsize
    rw [cover_pieces, hsize, hpages, hits, if_neg (by simp only; omega), hits,
      if_neg (by simp only; omega), Nat.zero_add, Nat.zero_add]
  have honce : ∀ a, uses c (update w.code.arena i n) a + cover w.handed a ≤
      cover given a := fun a => by
    have h₁ := uses_update w.code.arena hi n a
    have h₂ := hd.once a
    have h₃ := h.once a
    have h₄ := hold a
    have h₅ := hcover a
    omega
  have hone : ∀ a, uses c (update w.code.arena i n) a ≤ 1 := fun a =>
    (Nat.le_add_right ..).trans ((honce a).trans (cover_le_one happ a))
  -- what is allocated is in other arenas
  have hother : ∀ q ∈ w.live, ∃ j < c.maxArenas, j ≠ i ∧ Paged c (w.code.arena j) q := fun q hq => by
    obtain ⟨j, hj, hq⟩ := h.place q hq
    refine ⟨j, hj, ?_, hq⟩
    rintro rfl
    have hsize := h.size_eq j
    rw [hpages, Nat.zero_mul] at hsize
    have := hq.start
    have := hq.stop
    have := hq.pos
    omega
  refine ⟨fun j => ?_, fun j => ?_, fun j => ?_, fun j => ?_, honce, happ, fun j => ?_,
    h.handed_pos, fun q hq => ?_, h.live_once, fun j hj k hk => ?_⟩
  · rcases eq_or_ne j i with rfl | hji
    · simpa using hd.size_eq
    · simpa [hji] using h.size_eq j
  · rcases eq_or_ne j i with rfl | hji
    · simpa using hd.aligned
    · simpa [hji] using h.aligned j
  · rcases eq_or_ne j i with rfl | hji
    · simpa using hd.top
    · simpa [hji] using h.top j
  · rcases eq_or_ne j i with rfl | hji
    · simp only [update_self]
      exact hd.inside.imp_right fun hin => ⟨_, hmem, hin⟩
    · simp only [update_of_ne hji]
      exact (h.inside j).imp_right (Exists.imp fun g => And.imp_left (hsub g))
  · rcases eq_or_ne j i with rfl | hji
    · simpa using hd.area (h.area j)
    · simpa [hji] using h.area j
  · obtain ⟨j, hj, hji, hq⟩ := hother q hq
    exact ⟨j, hj, by simpa [hji] using hq⟩
  · have hset : ∀ x, (x < n.map ∨ n.map + n.pages ≤ x) → memset w.code.mem n.map 0 n.pages x =
        w.code.mem x := fun x hx => if_neg (by omega)
    simp only at hk ⊢
    rcases eq_or_ne j i with rfl | hji
    · rw [update_self] at hk ⊢
      have hzero : memset w.code.mem n.map 0 n.pages (n.map + k) = 0 := if_pos ⟨by omega, by omega⟩
      refine ⟨fun hne => absurd hzero hne, fun hpos => absurd hpos fun hpos => ?_⟩
      obtain ⟨q, hq, hin⟩ := cover_pos.1 hpos
      obtain ⟨l, hl, hlj, hq⟩ := hother q hq
      have hstart := hq.start
      have hstop := hq.stop
      have hlt : k * c.pageSize < n.pages * c.pageSize := Nat.mul_lt_mul_of_pos_right hk c.pageSize_pos
      refine hlj (page_unique hone hl hj (a := n.base + k * c.pageSize) ?_ ?_)
      · rw [update_of_ne hlj]
        exact ⟨by omega, by omega⟩
      · rw [update_self, hd.size_eq]
        exact ⟨by omega, by omega⟩
    · rw [update_of_ne hji] at hk ⊢
      rw [hset, h.marked j hj k hk]
      by_contra hmeet
      refine hji (map_unique hone hj hi (k := k) (l := (w.code.arena j).map + k - n.map) ?_ ?_ ?_).1
      · rwa [update_of_ne hji]
      · rw [update_self]
        omega
      · rw [update_of_ne hji, update_self]
        omega

/-- **What `novm_alloc_pages` does.** -/
theorem allocFrom_cases {s : State} {pages bitmap : ℕ} (hp : 0 < pages)
    (hzero : OffZero c s pages bitmap) : ∀ m i, i + m = c.maxArenas →
      (∀ j < i, bitmap.testBit j = true → ∀ k, ¬Vacant s.mem (s.arena j) pages k) →
        (∃ j < c.maxArenas, ∃ k, Vacant s.mem (s.arena j) pages k ∧
          (s.arena j).base + k * c.pageSize ≠ 0 ∧
          allocFrom c pages bitmap (List.range' i m) s = ((s.arena j).base + k * c.pageSize,
            { s with mem := memset s.mem ((s.arena j).map + k) 1 pages })) ∨
        allocFrom c pages bitmap (List.range' i m) s = (0, s) ∧
          ∀ j < c.maxArenas, bitmap.testBit j = true → ∀ k, ¬Vacant s.mem (s.arena j) pages k := by
  intro m
  induction m with
  | zero => exact fun i hi hnone => .inr ⟨rfl, fun j hj => hnone j (by omega)⟩
  | succ m ih =>
    intro i hi hnone
    rw [List.range'_succ, allocFrom]
    split_ifs with hbit
    · rcases allocHelper_cases (c := c) s (s.arena i) hp with ⟨k, hk, hv, hmin⟩ | ⟨hk, hall⟩
      · have hne : (s.arena i).base + k * c.pageSize ≠ 0 := fun h0 => by
          have hk0 : k = 0 := (Nat.mul_eq_zero.1 (Nat.add_eq_zero_iff.1 h0).2).resolve_right
            c.pageSize_pos.ne'
          subst hk0
          obtain ⟨j, hj, hbit, k, -, hv⟩ := hzero i (by omega) hbit (Nat.add_eq_zero_iff.1 h0).1 hp hv
          exact hnone j hj hbit k hv
        rw [hk]
        exact .inl ⟨i, by omega, k, hv, hne, if_pos hne⟩
      · rw [hk]
        refine ih (i + 1) (by omega) fun j hj hb => ?_
        rcases Nat.lt_succ_iff_lt_or_eq.1 hj with hj | rfl
        · exact hnone j hj hb
        · exact hall
    · refine ih (i + 1) (by omega) fun j hj hb => ?_
      rcases Nat.lt_succ_iff_lt_or_eq.1 hj with hj | rfl
      · exact hnone j hj hb
      · exact absurd hb hbit

theorem allocFrom_zero (s : State) (bitmap : ℕ) : ∀ is, allocFrom c 0 bitmap is s = (0, s)
  | [] => rfl
  | i :: is => by
      simp only [allocFrom, allocHelper, true_or, if_true, ne_eq, not_true_eq_false,
        allocFrom_zero s bitmap is, ite_self]

/-- A call of `novm_alloc_pages` that is clear of the address 0. -/
theorem Inv.allocPages (h : Inv c w) {pages bitmap : ℕ} (hzero : OffZero c w.code pages bitmap) :
    Inv c (w.grant c (Novm.allocPages c w.code pages bitmap).2
        (Novm.allocPages c w.code pages bitmap).1 pages) ∧
      ((Novm.allocPages c w.code pages bitmap).1 = 0 →
        (Novm.allocPages c w.code pages bitmap).2 = w.code ∧
          ∀ i < c.maxArenas, bitmap.testBit i = true → ¬FreeRun c w (w.code.arena i) pages) := by
  rcases Nat.eq_zero_or_pos pages with rfl | hp
  · rw [Novm.allocPages, allocFrom_zero, World.grant, if_pos rfl]
    exact ⟨h, fun _ => ⟨rfl, fun i _ _ hrun => absurd hrun.1 (Nat.lt_irrefl 0)⟩⟩
  · rw [Novm.allocPages, List.range_eq_range']
    rcases allocFrom_cases hp hzero c.maxArenas 0 (Nat.zero_add _) (fun j hj => absurd hj (by omega))
      with ⟨j, hj, k, hv, hne, heq⟩ | ⟨heq, hnone⟩
    · rw [heq, World.grant, if_neg hne]
      exact ⟨h.take hj hp hv, fun h0 => absurd h0 hne⟩
    · rw [heq, World.grant, if_pos rfl]
      refine ⟨h, fun _ => ⟨rfl, fun i hi hbit hrun => ?_⟩⟩
      obtain ⟨-, k, hv⟩ := (h.freeRun_iff hi).1 hrun
      exact hnone i hi hbit k hv

/-- The area in front of the pages of the first arena changes hands. -/
theorem Inv.handOut (h : Inv c w) (hne : (w.code.arena 0).unalignedArea ≠ 0) :
    Inv c { w with
      code.arena := update w.code.arena 0
        { w.code.arena 0 with unalignedArea := 0, unalignedSize := 0 }
      handed := ((w.code.arena 0).unalignedArea, (w.code.arena 0).unalignedSize) :: w.handed } := by
  have hsame : ∀ j, ∃ a b, update w.code.arena 0
      { w.code.arena 0 with unalignedArea := 0, unalignedSize := 0 } j =
        { w.code.arena j with unalignedArea := a, unalignedSize := b } ∧ (a ≠ 0 → 0 < b) := by
    intro j
    rcases eq_or_ne j 0 with rfl | hj
    · exact ⟨0, 0, update_self .., fun h => absurd rfl h⟩
    · exact ⟨_, _, update_of_ne hj .., h.area j⟩
  refine ⟨fun j => ?_, fun j => ?_, fun j => ?_, fun j => ?_, fun a => ?_, h.apart, fun j => ?_,
    fun q hq => ?_, fun q hq => ?_, h.live_once, fun j hj k hk => ?_⟩
  · obtain ⟨a, b, hj, -⟩ := hsame j
    simp only [hj]
    exact h.size_eq j
  · obtain ⟨a, b, hj, -⟩ := hsame j
    simp only [hj]
    exact h.aligned j
  · obtain ⟨a, b, hj, -⟩ := hsame j
    simp only [hj]
    exact h.top j
  · obtain ⟨a, b, hj, -⟩ := hsame j
    simp only [hj]
    exact h.inside j
  · have h₁ := uses_update w.code.arena c.arenas_pos
      { w.code.arena 0 with unalignedArea := 0, unalignedSize := 0 } a
    have h₂ := h.once a
    have h₃ : hits a (0, 0) = 0 := if_neg (by simp)
    rw [cover_pieces, cover_pieces] at h₁
    rw [cover_cons]
    simp only [h₃] at h₁ ⊢
    omega
  · obtain ⟨a, b, hj, hab⟩ := hsame j
    simp only [hj]
    exact hab
  · rcases List.mem_cons.1 hq with rfl | hq
    · exact h.area 0 hne
    · exact h.handed_pos q hq
  · obtain ⟨j, hj, hq⟩ := h.place q hq
    obtain ⟨a, b, hj', -⟩ := hsame j
    refine ⟨j, hj, ?_⟩
    simp only [hj']
    exact ⟨hq.start, hq.stop, hq.aligned, hq.whole, hq.pos⟩
  · obtain ⟨a, b, hj', -⟩ := hsame j
    simp only [hj'] at hk ⊢
    exact h.marked j hj k hk

/-- The arena of an address has it among its pages. -/
theorem mem_of_findArena {address i : ℕ} (hf : findArena c w.code address = some i) :
    i < c.maxArenas ∧ (w.code.arena i).base ≤ address ∧
      address < (w.code.arena i).base + (w.code.arena i).size := by
  have hi := List.mem_range.1 (List.mem_of_find?_eq_some hf)
  have hin : inArena c (w.code.arena i) address := by simpa using List.find?_some hf
  obtain ⟨-, h₁, h₂⟩ := hin
  refine ⟨hi, h₁, ?_⟩
  have := Nat.mod_le ((w.code.arena i).base + (w.code.arena i).size) (2 ^ c.width)
  rw [Word.addW] at h₂
  omega

/-- The page map is left as it was where a specific allocation fails. -/
theorem allocSpecific_cases {address pages : ℕ} (h : Inv c w)
    (hok : Meets c w (.allocSpecificPages address pages)) :
    (Novm.allocSpecificPages c w.code address pages).2 = w.code ∧
        ((Novm.allocSpecificPages c w.code address pages).1 ≠ .noError ∨ pages = 0) ∨
      (Novm.allocSpecificPages c w.code address pages).1 = .noError ∧
        ∃ i < c.maxArenas, ∃ k, address = (w.code.arena i).base + k * c.pageSize ∧
          Vacant w.code.mem (w.code.arena i) pages k ∧
            (Novm.allocSpecificPages c w.code address pages).2 =
              { w.code with mem := memset w.code.mem ((w.code.arena i).map + k) 1 pages } := by
  rw [Novm.allocSpecificPages]
  cases hf : Novm.findArena c w.code address with
  | none => exact .inl ⟨rfl, .inl (show Status.errNotFound ≠ .noError by decide)⟩
  | some i =>
    obtain ⟨hi, hlo, hhi⟩ := mem_of_findArena hf
    simp only
    rcases hok i hf with rfl | htaken | ⟨hdvd, hv⟩
    · exact .inl ⟨rfl, .inr rfl⟩
    · cases pages with
      | zero => exact .inl ⟨rfl, .inr rfl⟩
      | succ pages =>
        rw [markEach, if_pos htaken]
        exact .inl ⟨rfl, .inl (show Status.errNoMemory ≠ .noError by decide)⟩
    · obtain ⟨k, hk⟩ := Nat.dvd_sub hdvd (h.aligned i)
      have hindex : (address - (w.code.arena i).base) / c.pageSize = k := by
        rw [hk, Nat.mul_div_cancel_left _ c.pageSize_pos]
      rw [hindex] at hv ⊢
      rw [markEach_of_vacant _ _ _ hv.2]
      refine .inr ⟨rfl, i, hi, k, ?_, hv, rfl⟩
      rw [Nat.mul_comm k, ← hk]
      omega

/-- **One call.** -/
theorem Inv.step (h : Inv c w) {op : Op} (howed : Owed c w op) (hmeets : Meets c w op) {w' : World}
    {out : Out} (hs : step c w op = some (w', out)) : Inv c w' ∧ FailsFor c w w' op out := by
  cases op with
  | init memStart memSize map defaultMapSize =>
    cases hs
    obtain ⟨hpages, has, hsz, happ⟩ := howed
    refine ⟨@Inv.initHelper _ _ h _ _ _ (map, defaultMapSize) _ c.arenas_pos hpages has hsz hmeets happ
      (fun g hg => by simp [hg]) List.mem_cons_self fun a => ?_, trivial⟩
    rw [cover_cons, cover_cons, Nat.add_assoc]
  | addArena arenaStart arenaSize =>
    obtain ⟨p, hp, hw⟩ := Option.map_eq_some_iff.1 hs
    obtain ⟨rfl, rfl⟩ := Prod.mk.inj hw
    obtain ⟨i, hi, rfl⟩ := Option.map_eq_some_iff.1 hp
    obtain ⟨has, hsz, happ⟩ := howed
    have hpages : (w.code.arena i).pages = 0 := by simpa using List.find?_some hi
    refine ⟨@Inv.initHelper _ _ h _ _ _ (0, 0) _ (List.mem_range.1 (List.mem_of_find?_eq_some hi)) hpages
      has hsz hmeets happ (fun g hg => by simp [hg]) List.mem_cons_self fun a => ?_, trivial⟩
    rw [cover_cons, show hits a (0, 0) = 0 from if_neg (by simp), Nat.add_zero]
  | allocPages pages bitmap =>
    cases hs
    obtain ⟨hinv, hfail⟩ := h.allocPages hmeets
    exact ⟨hinv, hfail⟩
  | allocUnaligned =>
    cases hs
    rw [Novm.allocUnaligned]
    by_cases hne : (w.code.arena 0).unalignedArea ≠ 0
    · rw [if_pos hne, if_pos hne]
      exact ⟨h.handOut hne, fun h0 => absurd h0 hne⟩
    · rw [if_neg hne, if_neg hne]
      obtain ⟨hinv, hfail⟩ := h.allocPages (hmeets.resolve_left hne)
      refine ⟨hinv, fun h0 => ⟨(hfail h0).1, fun i hi => (hfail h0).2 i hi ?_⟩⟩
      have := c.arenas_le
      rw [novmArenaAny, Nat.testBit_two_pow_sub_one]
      simp only [decide_eq_true_eq]
      omega
  | allocSpecificPages address pages =>
    cases hs
    rcases allocSpecific_cases h hmeets with ⟨hsame, hres⟩ | ⟨hst, i, hi, k, rfl, hv, heq⟩
    · rw [hsame, if_neg (by rintro ⟨h₁, h₂⟩; rcases hres with h | h <;> [exact h h₁; omega])]
      exact ⟨h, fun _ => rfl⟩
    · rw [heq, hst]
      refine ⟨?_, fun hne => absurd rfl hne⟩
      by_cases hp : 0 < pages
      · rw [if_pos ⟨rfl, hp⟩]
        exact h.take hi hp hv
      · obtain rfl : pages = 0 := by omega
        have hmem : memset w.code.mem ((w.code.arena i).map + k) 1 0 = w.code.mem :=
          funext fun x => if_neg (by omega)
        rw [if_neg fun h => hp h.2, hmem]
        exact h
  | freePages address pages =>
    cases hs
    refine ⟨?_, trivial⟩
    by_cases hp : pages = 0
    · subst hp
      have hmem : ∀ a, memset w.code.mem a 0 0 = w.code.mem := fun a =>
        funext fun x => if_neg (by omega)
      rw [if_pos rfl, Novm.freePages]
      cases Novm.findArena c w.code address <;> simp only [hmem] <;> exact h
    · obtain ⟨i, hi⟩ := Option.isSome_iff_exists.1 (hmeets.resolve_left hp)
      obtain ⟨hdvd, q, hq, hlo, hhi⟩ := howed.resolve_left hp
      obtain ⟨hlt, hin⟩ := mem_of_findArena hi
      obtain ⟨j, hj, hpaged⟩ := h.place q hq
      have hpos : 0 < pages * c.pageSize := Nat.mul_pos (Nat.pos_of_ne_zero hp) c.pageSize_pos
      have hstart := hpaged.start
      have hstop := hpaged.stop
      obtain rfl := page_unique h.uses_le_one hlt hj hin ⟨by omega, by omega⟩
      rw [if_neg hp, Novm.freePages, hi]
      exact h.release hj hdvd hpaged hlo hhi
  | write address value =>
    cases hs
    obtain ⟨q, hq, hin⟩ := howed
    refine ⟨⟨h.size_eq, h.aligned, h.top, h.inside, h.once, h.apart, h.area, h.handed_pos,
      h.place, h.live_once, fun i hi k hk => ?_⟩, trivial⟩
    have hne : (w.code.arena i).map + k ≠ address := fun heq =>
      h.sound.off_map q hq i hi k hk (heq ▸ hin)
    simp only [update_of_ne hne]
    exact h.marked i hi k hk

end Calls

/-- **Pages have one owner.**  In a run of calls that are clear of the defects, by callers who
do what they owe, no byte has two owners after any call, and a call that fails had to fail
and left the maps as they were. -/
theorem novm_page_ownership (mem : ℕ → UInt8) (ops : List Op)
    (howed : Along (next c) (Owed c) (boot mem) ops)
    (hmeets : Along (next c) (Meets c) (boot mem) ops) :
    Along (next c) (Correct c) (boot mem) ops := by
  have hok := howed.and hmeets
  have hinv : Throughout (next c) (Inv c) (boot mem) ops :=
    hok.throughout (fun w op w' h hop hs => by
      obtain ⟨p, hp, rfl⟩ := Option.map_eq_some_iff.1 hs
      exact (h.step hop.1 hop.2 hp).1) (inv_boot mem)
  refine (hinv.along hok).imp fun w op hop w' out hs => ?_
  obtain ⟨hinv', hfails⟩ := hop.1.step hop.2.1 hop.2.2 hs
  exact ⟨hinv'.sound, hfails⟩

/-- A 32-bit build with pages of 4096 bytes and one arena. -/
def smallBuild : Config := ⟨32, 12, 1, by decide, by decide, by decide, by decide⟩

/-- All kinds of calls on a small arena, with a run of two pages at a given address. -/
theorem novm_page_ownership_small : Along (next smallBuild) (Correct smallBuild) (boot fun _ => 0xff)
    [.addArena 0x20000100 0x5000, .allocPages 1 1, .allocSpecificPages 0x20002000 2,
      .write 0x20002010 7, .allocPages 2 1, .freePages 0x20003000 1, .allocUnaligned] :=
  novm_page_ownership _ _ (by decide +kernel) (by decide +kernel)

/-- A specific allocation that finds its second page taken keeps the first one, which is then
neither allocated nor free. -/
def leakySpecific : List Op :=
  [.addArena 0x20000100 0x4000, .allocSpecificPages 0x20003000 1, .allocSpecificPages 0x20002000 2]

/-- The call fails, and the page map is not the one it found. -/
theorem not_novm_page_ownership : ¬∀ ops : List Op,
    Along (next smallBuild) (Owed smallBuild) (boot fun _ => 0) ops →
      Along (next smallBuild) (Correct smallBuild) (boot fun _ => 0) ops := by
  intro h
  obtain ⟨-, h₁⟩ := h leakySpecific (by decide +kernel)
  obtain ⟨-, h₂⟩ := h₁ _ rfl
  obtain ⟨h₃, -⟩ := h₂ _ rfl
  have hsame := congrArg (fun s => s.mem 0x20000101) ((h₃ _ _ rfl).2 (by decide +kernel))
  revert hsame
  decide +kernel

end Novm
end LittleKernel
