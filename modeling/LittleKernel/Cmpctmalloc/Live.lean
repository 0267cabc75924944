/-
# The blocks the callers hold

What the calls of `lib/heap/cmpctmalloc/cmpctmalloc.c` promise their callers, over whole
runs.  A `Session` is the heap and the requests that are open: for each block handed out and
not yet freed its address, the bytes and the alignment that were asked for.  `Sound` says
that every request is met in the memory as it is, and `Honoured` what one more call does.

`Fit` is what a call has to meet for that.  It leaves out the requests for which the code
hands out too little (`large_alloc` does not count the header of the block, which
`cmpct_memalign` with an alignment of 8 inherits), those that fail and are not prepared to
(`large_alloc` returns with the lock held, `cmpct_memalign` and `cmpct_realloc` go on with
`NULL`), sums of sizes that do not fit a `size_t`, and the frees and trims that break the
layout (`Meets`).
-/

import LittleKernel.Cmpctmalloc.Contents
import LittleKernel.Cmpctmalloc.Invariant

namespace LittleKernel
namespace Cmpct

open Word

/-! ### Requests -/

/-- A block handed out: its payload, and what was asked for. -/
structure Req where
  payload : ℕ
  size : ℕ
  alignment : ℕ
  deriving DecidableEq

/-- The heap and the requests that are open. -/
structure Session where
  heap : Heap
  reqs : List Req

/-- One call: what it returns, and the heap. -/
def call (c : Config) (s : Heap) : Op → Option (ℕ × Heap)
  | .alloc size answers => cmpctAlloc c (u64 size) { s with answers := answers }
  | .free payload =>
    if payload = 0 ∨ payload ∈ s.live then
      (cmpctFree payload { s with live := s.live.erase payload }).map (0, ·)
    else none
  | .memalign size alignment answers =>
    cmpctMemalign c (u64 size) (u64 alignment) { s with answers := answers }
  | .realloc payload size answers =>
    if payload = 0 ∨ payload ∈ s.live then
      cmpctRealloc c payload (u64 size)
        { s with answers := answers, live := s.live.erase payload }
    else none
  | .trim => (cmpctTrim s).map (0, ·)
  | .store a v => if s.Writable a then some (0, s.store a (u64 v)) else none

/-- A request that was met is open. -/
def granted (p size alignment : ℕ) (reqs : List Req) : List Req :=
  if p = 0 then reqs else ⟨p, size, alignment⟩ :: reqs

/-- A request whose block is given up is closed. -/
def closed (payload : ℕ) (reqs : List Req) : List Req := reqs.filter (·.payload ≠ payload)

/-- The requests after a call that returns `p`. -/
def Op.requests (p : ℕ) (reqs : List Req) : Op → List Req
  | .alloc size _ => granted p (u64 size) 1 reqs
  | .free payload => closed payload reqs
  | .memalign size alignment _ => granted p (u64 size) (u64 alignment) reqs
  | .realloc payload size _ => granted p (u64 size) 1 (closed payload reqs)
  | .trim | .store _ _ => reqs

/-- One call of a session. -/
def Session.step (c : Config) (t : Session) (op : Op) : Option (Session × ℕ) :=
  (call c t.heap op).map fun r => (⟨returned r, op.requests r.1 t.reqs⟩, r.1)

/-- **Every open request is met.**  The lock is free; the payload lies in one region, behind
its left sentinel and before its right one, is aligned as asked, and meets no header and no
other payload. -/
structure Sound (t : Session) : Prop where
  unlocked : t.heap.locked = false
  live : ∀ p, p ∈ t.heap.live ↔ ∃ q ∈ t.reqs, q.payload = p
  layout : ∃ R : List Region, t.heap.held = R.map Region.range ∧
    (∀ n ∈ nodesOf R, t.heap.mem n.addr = n.left ∧ t.heap.mem (n.addr + 8) = n.size) ∧
    (∀ q ∈ t.reqs,
      (∃ r ∈ R, r.base + r.sentinel + 16 ≤ q.payload ∧
        q.payload + q.size + 16 ≤ r.base + r.len) ∧
      (q.alignment.isPowerOfTwo → q.alignment ∣ q.payload) ∧
      ∀ n ∈ nodesOf R, n.addr + 16 ≤ q.payload ∨ q.payload + q.size ≤ n.addr) ∧
    t.reqs.Pairwise fun q q' => Ranges.Apart (q.payload, q.size) (q'.payload, q'.size)

/-! ### Where memory comes from -/

/-- The ranges that the loop of `cmpct_alloc` asks `page_alloc` for, one after the other. -/
def growths (roundedUp : ℕ) : ℕ → ℕ → List ℕ
  | 0, _ => []
  | fuel + 1, growby =>
    growSize growby ::
      if growby ≤ roundedUp then [] else growths roundedUp fuel (max (growby / 2) roundedUp)

/-- The ranges that `cmpct_alloc` asks for when no list has an area for the size. -/
def asked (c : Config) (size : ℕ) (s : Heap) : List ℕ :=
  if 2 ^ 22 < u64 (size + 16) then [growSize (roundup size 8)]
  else
    let roundedUp := u64 ((sizeToIndexAllocating size).2 + 16)
    growths roundedUp 23 (min (2 ^ 22) (max (s.size / 2 ^ 3) (max c.heapGrowSize roundedUp)))

/-- **There is no memory for the size.**  No list has an area for it, and `page_alloc`
refuses every range that is asked for. -/
def CannotGet (c : Config) (size : ℕ) (s : Heap) : Prop :=
  size ≠ 0 ∧
    (size + 16 ≤ 2 ^ 22 →
      (bucketOf (sizeToIndexAllocating size).1).bind (findNonemptyBucket s.freeListBits) = none) ∧
    ∀ x ∈ (asked c size s).zip s.answers, ∀ p ∈ x.2, ¬s.Fresh p x.1

instance (c : Config) (size : ℕ) (s : Heap) : Decidable (CannotGet c size s) :=
  inferInstanceAs (Decidable (_ ∧ _ ∧ ∀ x ∈ (asked c size s).zip s.answers,
    ∀ p ∈ x.2, ¬s.Fresh p x.1))

/-- The block that `cmpct_alloc` makes holds the size and its header. -/
def FitSize (size : ℕ) : Prop := size + 16 ≤ 2 ^ 22 ∨ size + 48 ≤ growSize (roundup size 8)

instance (size : ℕ) : Decidable (FitSize size) := inferInstanceAs (Decidable (_ ∨ _))

/-- What `cmpct_alloc` has to meet. -/
def FitAlloc (c : Config) (size : ℕ) (s : Heap) : Prop :=
  FitSize size ∧ (size + 16 ≤ 2 ^ 22 ∨ ¬CannotGet c size s)

instance (c : Config) (size : ℕ) (s : Heap) : Decidable (FitAlloc c size s) :=
  inferInstanceAs (Decidable (_ ∧ _))

/-- What `cmpct_memalign` has to meet. -/
def FitMemalign (c : Config) (size alignment : ℕ) (s : Heap) : Prop :=
  AlignedRequest size alignment ∧ (alignment < 8 → FitAlloc c size s) ∧
    (8 ≤ alignment → ¬CannotGet c (size + alignment + 32 + 16) s ∧
      (alignment = 8 → size + 8 + 64 ≤ 2 ^ 22 ∨
        size + 96 ≤ growSize (roundup (size + 8 + 32 + 16) 8)))

instance (c : Config) (size alignment : ℕ) (s : Heap) :
    Decidable (FitMemalign c size alignment s) :=
  inferInstanceAs (Decidable (_ ∧ (_ → _) ∧ (_ → _ ∧ (_ → _ ∨ _))))

/-- What `cmpct_realloc` has to meet. -/
def FitRealloc (c : Config) (payload size : ℕ) (s : Heap) : Prop :=
  RoomToCopy payload size s ∧ (payload = 0 → FitAlloc c size s) ∧
    (payload ≠ 0 → FitSize size ∧ ¬CannotGet c size s)

instance (c : Config) (payload size : ℕ) (s : Heap) : Decidable (FitRealloc c payload size s) :=
  inferInstanceAs (Decidable (_ ∧ (_ → _) ∧ (_ → _ ∧ _)))

/-- What a call has to meet in the state it is made in. -/
def Fit (c : Config) (t : Session) : Op → Prop
  | .alloc size answers => FitAlloc c (u64 size) { t.heap with answers := answers }
  | .free payload => payload = 0 ∨ RoomToFree payload t.heap
  | .memalign size alignment answers =>
    FitMemalign c (u64 size) (u64 alignment) { t.heap with answers := answers }
  | .realloc payload size answers =>
    FitRealloc c payload (u64 size) { t.heap with answers := answers }
  | .trim => t.heap.Snug
  | .store _ _ => True

instance (c : Config) (t : Session) : ∀ op, Decidable (Fit c t op)
  | .alloc size answers =>
    inferInstanceAs (Decidable (FitAlloc c (u64 size) { t.heap with answers := answers }))
  | .free payload => inferInstanceAs (Decidable (payload = 0 ∨ RoomToFree payload t.heap))
  | .memalign size alignment answers =>
    inferInstanceAs (Decidable
      (FitMemalign c (u64 size) (u64 alignment) { t.heap with answers := answers }))
  | .realloc payload size answers =>
    inferInstanceAs (Decidable
      (FitRealloc c payload (u64 size) { t.heap with answers := answers }))
  | .trim => inferInstanceAs (Decidable t.heap.Snug)
  | .store _ _ => .isTrue trivial

section Refusals

variable {c : Config} {s s' : Heap} {size p : ℕ}

/-- A small request has a bucket. -/
theorem bucketOf_isSome (hsize : 0 < size) (hsize' : size + 16 ≤ 2 ^ 22) :
    ∃ start < numberOfBuckets, bucketOf (sizeToIndexAllocating size).1 = some start := by
  suffices h : 0 ≤ (sizeToIndexAllocating size).1 ∧
      (sizeToIndexAllocating size).1 < numberOfBuckets by
    exact ⟨(sizeToIndexAllocating size).1.toNat, by omega, by rw [bucketOf, if_pos h]⟩
  have hr : roundup size 8 = (size + 7) / 8 * 8 := by
    rw [roundup, u64_of_lt (by omega)]
  rw [sizeToIndexAllocating, hr, numberOfBuckets]
  rcases Nat.lt_or_ge 128 ((size + 7) / 8 * 8) with hgt | hle
  · rw [sizeToIndexHelper_of_gt (g := (size + 7) / 8 * 8 - 8) hgt (by omega) (by omega)
      (by omega)]
    have h32 := le_rowColumn (f := (size + 7) / 8 * 8 - 8) (by omega)
    have hge := bucketSize_rowColumn_le (f := (size + 7) / 8 * 8 - 8) (by omega)
    generalize rowColumn ((size + 7) / 8 * 8 - 8) = rc at *
    have hrc : rc + 1 ≤ 152 := by
      have h152 : bucketSize 152 = 2 ^ 22 := rfl
      exact bucketSize_strictMono.lt_iff_lt.1 (by omega)
    simp only
    omega
  · simp only [sizeToIndexHelper, if_pos hle, Nat.shiftRight_eq_div_pow]
    omega

theorem heapGrow_refused {bucket : Option ℕ}
    (hno : ∀ p, s.answers.head? = some (some p) → ¬s.Fresh p (growSize size)) :
    heapGrow size bucket s = some (0, { s with answers := s.answers.tail }) := by
  have hmod := growSize_mod size
  have hn : growSize size / 4096 * 4096 = growSize size := by omega
  have hpage : pageAlloc (growSize size / 4096) s = (0, { s with answers := s.answers.tail }) := by
    unfold pageAlloc
    split
    · rename_i p as hcons
      rw [hn, if_neg (hno p (by rw [hcons]; rfl)), hcons]
      rfl
    · rename_i as hcons
      rw [hcons]
      rfl
    · rename_i hnil
      rw [show s.answers.tail = s.answers by rw [hnil]; rfl]
  simp only [heapGrow, hpage, if_true]

/-- The first range that the loop asks for is refused. -/
theorem growLoop_turn {roundedUp fuel growby : ℕ} {s : Heap}
    (hno : ∀ x ∈ (growths roundedUp (fuel + 1) growby).zip s.answers, ∀ p ∈ x.2, ¬s.Fresh p x.1) :
    heapGrow growby none s = some (0, { s with answers := s.answers.tail }) := by
  refine heapGrow_refused fun p hp => ?_
  obtain ⟨as, has⟩ := List.head?_eq_some_iff.1 hp
  exact hno (growSize growby, some p) (by simp [growths, has]) p rfl

/-- When every range is refused the loop ends, and has changed nothing. -/
theorem growLoop_refused {roundedUp : ℕ} (hr : 0 < roundedUp) : ∀ {fuel growby : ℕ} {s : Heap},
    growby ≤ max roundedUp (2 ^ fuel) →
    (∀ x ∈ (growths roundedUp (fuel + 1) growby).zip s.answers, ∀ p ∈ x.2, ¬s.Fresh p x.1) →
    ∃ as, growLoop roundedUp (fuel + 1) growby s = some (false, { s with answers := as }) := by
  intro fuel
  induction fuel with
  | zero =>
    intro growby s hle hno
    have hgrow := growLoop_turn hno
    refine ⟨s.answers.tail, ?_⟩
    simp only [growLoop, hgrow, Option.bind_eq_bind, Option.bind_some, ne_eq, not_true_eq_false,
      if_false, if_pos (show growby ≤ roundedUp by omega)]
  | succ fuel ih =>
    intro growby s hle hno
    have hgrow := growLoop_turn hno
    by_cases hdone : growby ≤ roundedUp
    · refine ⟨s.answers.tail, ?_⟩
      rw [growLoop]
      simp only [hgrow, Option.bind_eq_bind, Option.bind_some, ne_eq, not_true_eq_false,
        if_false, if_pos hdone]
    · have hnext : max (growby / 2) roundedUp ≤ max roundedUp (2 ^ fuel) := by
        rw [pow_succ] at hle
        omega
      obtain ⟨as, has⟩ := ih (s := { s with answers := s.answers.tail }) hnext fun x hx p hp => by
        refine hno x ?_ p hp
        rw [growths, if_neg hdone]
        cases hans : s.answers with
        | nil =>
          rw [hans] at hx
          simp at hx
        | cons a as =>
          rw [hans] at hx
          exact List.mem_cons_of_mem _ hx
      refine ⟨as, ?_⟩
      rw [growLoop]
      simp only [hgrow, Option.bind_eq_bind, Option.bind_some, ne_eq, not_true_eq_false,
        if_false, if_neg hdone, has]

/-- The loop gives up only when nothing was changed. -/
theorem growLoop_false {roundedUp : ℕ} : ∀ {fuel growby : ℕ} {s : Heap},
    growLoop roundedUp fuel growby s = some (false, s') → ∃ as, s' = { s with answers := as }
  | fuel + 1, growby, s, hs => by
      simp only [growLoop, Option.bind_eq_bind, Option.bind_eq_some_iff] at hs
      obtain ⟨⟨ptr, s₁⟩, hs₁, hs⟩ := hs
      by_cases hptr : ptr = 0
      · subst hptr
        have hs₁' : ∃ as, s₁ = { s with answers := as } := by
          simp only [heapGrow] at hs₁
          rcases pageAlloc_cases (growSize growby / 4096) s with ⟨as, ha⟩ | ⟨p, as, hf, ha⟩
          · rw [ha] at hs₁
            simp only [if_true, Option.some.injEq, Prod.mk.injEq, true_and] at hs₁
            exact ⟨as, hs₁.symm⟩
          · rw [ha] at hs₁
            have hp0 := hf.2.1
            simp only [if_neg (Nat.ne_of_gt hp0), Option.bind_eq_bind, Option.bind_eq_some_iff,
              Option.some.injEq, Prod.mk.injEq] at hs₁
            obtain ⟨-, -, rfl, -⟩ := hs₁
            exact absurd hp0 (lt_irrefl 0)
        obtain ⟨as, rfl⟩ := hs₁'
        simp only [ne_eq, not_true_eq_false, if_false] at hs
        split_ifs at hs with hle
        · exact ⟨as, (Prod.mk.inj (Option.some.inj hs)).2.symm⟩
        · obtain ⟨as', rfl⟩ := growLoop_false hs
          exact ⟨as', rfl⟩
      · simp only [ne_eq, hptr, not_false_eq_true, if_true, Option.some.injEq, Prod.mk.injEq] at hs
        exact absurd hs.1 (by decide)

/-- The lock taken and given back. -/
theorem Heap.unlock_lock (h : s.locked = false) (as : List (Option ℕ)) :
    Heap.unlock { s with locked := true, answers := as } = { s with answers := as } := by
  rw [Heap.unlock, ← h]

/-- `cmpct_alloc` of a small size when there is no memory for it. -/
theorem cmpctAlloc_refused (hlock : s.locked = false) (hsize : size + 16 ≤ 2 ^ 22)
    (hno : CannotGet c size s) :
    ∃ as, cmpctAlloc c size s = some (0, { s with answers := as }) := by
  obtain ⟨h0, hbucket, hno⟩ := hno
  obtain ⟨start, -, hstart⟩ := bucketOf_isSome (Nat.pos_of_ne_zero h0) hsize
  have hnone := hbucket hsize
  rw [hstart, Option.bind_some] at hnone
  obtain ⟨-, h16, -, hrtop⟩ := rounded_spec (Nat.pos_of_ne_zero h0) (by omega)
  have hsmall : ¬2 ^ 22 < u64 (size + 16) := by
    rw [u64_of_lt (by omega)]
    omega
  simp only [asked, if_neg hsmall] at hno
  have hr : u64 ((sizeToIndexAllocating size).2 + 16) = (sizeToIndexAllocating size).2 + 16 :=
    u64_of_lt (by omega)
  rw [hr] at hno
  have hpos : 0 < (sizeToIndexAllocating size).2 + 16 := by omega
  have hmin : min (2 ^ 22) (max (s.size / 2 ^ 3)
      (max c.heapGrowSize ((sizeToIndexAllocating size).2 + 16))) ≤
      max ((sizeToIndexAllocating size).2 + 16) (2 ^ 22) := by omega
  obtain ⟨as, has⟩ := growLoop_refused (s := { s with locked := true }) hpos hmin hno
  refine ⟨as, ?_⟩
  rw [cmpctAlloc, if_neg h0, if_neg hsmall]
  simp only [Heap.lock, hlock, Bool.false_eq_true, if_false, Option.bind_eq_bind, Option.bind_some,
    hstart, hnone, hr, has]
  rfl

theorem allocFrom_result {roundedUp bucket : ℕ}
    (h : allocFrom size roundedUp bucket s = some (p, s')) : p ≠ 0 ∧ s'.locked = false := by
  simp only [allocFrom, Option.bind_eq_bind] at h
  split_ifs at h
  · simp only [Option.bind_eq_some_iff, Option.some.injEq, Prod.mk.injEq] at h
    obtain ⟨-, -, -, -, -, -, rfl, rfl⟩ := h
    exact ⟨by omega, rfl⟩
  · simp only [Option.bind_eq_some_iff, Option.some.injEq, Prod.mk.injEq] at h
    obtain ⟨-, -, rfl, rfl⟩ := h
    exact ⟨by omega, rfl⟩

/-- A large request that the system grants is met. -/
theorem largeAlloc_result (hp : ∃ p, s.answers.head? = some (some p) ∧
    s.Fresh p (growSize (roundup size 8))) (h : largeAlloc size s = some (p, s')) :
    p ≠ 0 ∧ s'.locked = false := by
  obtain ⟨q, hq, hfresh⟩ := hp
  obtain ⟨as, has⟩ := List.head?_eq_some_iff.1 hq
  have hmod := growSize_mod (roundup size 8)
  have hn : growSize (roundup size 8) / 4096 * 4096 = growSize (roundup size 8) := by omega
  have hq0 := hfresh.2.1
  simp only [largeAlloc, Option.bind_eq_bind, Option.bind_eq_some_iff] at h
  obtain ⟨s₀, hs₀, ⟨ptr, s₁⟩, hs₁, h⟩ := h
  obtain rfl := Heap.lock_eq_some hs₀
  have hpage : (pageAlloc (growSize (roundup size 8) / 4096) { s with locked := true }).1 = q := by
    unfold pageAlloc
    simp only [has, hn]
    split_ifs with hf
    · rfl
    · exact absurd hfresh hf
  have hptr : ptr = q := by
    simp only [heapGrow, hpage, if_neg (Nat.ne_of_gt hq0), Option.bind_eq_bind,
      Option.bind_eq_some_iff, Option.some.injEq, Prod.mk.injEq] at hs₁
    obtain ⟨-, -, rfl, -⟩ := hs₁
    rfl
  subst hptr
  simp only [if_neg (Nat.ne_of_gt hq0)] at h
  cases h
  exact ⟨by omega, rfl⟩

/-- What `cmpct_alloc` returns: `NULL` with the heap as it was, or a block with the lock
free. -/
theorem cmpctAlloc_result (hlock : s.locked = false) (hfit : FitAlloc c size s)
    (h : cmpctAlloc c size s = some (p, s')) :
    (p = 0 ∧ ∃ as, s' = { s with answers := as }) ∨ p ≠ 0 ∧ s'.locked = false := by
  unfold cmpctAlloc at h
  split_ifs at h with h0 hlarge
  · cases h
    exact .inl ⟨rfl, s.answers, rfl⟩
  · refine .inr (largeAlloc_result ?_ h)
    have hbig : ¬size + 16 ≤ 2 ^ 22 := fun hle => by
      rw [u64_of_lt (by omega)] at hlarge
      omega
    have hgets := hfit.2.resolve_left hbig
    unfold CannotGet at hgets
    push Not at hgets
    obtain ⟨x, hx, p, hp, hfresh⟩ := hgets h0 fun hle => absurd hle hbig
    rw [asked, if_pos hlarge] at hx
    cases has : s.answers with
    | nil => simp [has] at hx
    | cons a as =>
      obtain rfl : x = (growSize (roundup size 8), a) := by simpa [has] using hx
      obtain rfl : a = some p := hp
      exact ⟨p, rfl, hfresh⟩
  · simp only [Option.bind_eq_bind, Option.bind_eq_some_iff] at h
    obtain ⟨s₀, hs₀, start, -, h⟩ := h
    obtain rfl := Heap.lock_eq_some hs₀
    split at h
    · exact .inr (allocFrom_result h)
    · simp only [Option.bind_eq_some_iff] at h
      obtain ⟨⟨grown, s₁⟩, hs₁, h⟩ := h
      split_ifs at h with hgrown
      · simp only [Option.bind_eq_some_iff] at h
        obtain ⟨bucket, -, h⟩ := h
        exact .inr (allocFrom_result h)
      · simp only [Bool.not_eq_true] at hgrown
        subst hgrown
        obtain ⟨as, rfl⟩ := growLoop_false hs₁
        cases h
        exact .inl ⟨rfl, as, Heap.unlock_lock hlock as⟩

end Refusals

section Sizes

variable {size alignment a z : ℕ}

theorem AllocSize.fits (h : AllocSize size a z) (hfit : FitSize size) : size + 16 ≤ z := by
  rcases h with ⟨-, hz⟩ | ⟨hlarge, rfl, -, -⟩
  · omega
  · rcases hfit with hsmall | hfit
    · rw [u64_of_lt (by omega)] at hlarge
      omega
    · omega

/-- The end of a large block from the last multiple of the alignment on. -/
theorem le_of_large {n b e : ℕ} (he : 3 ≤ e) (hb : b % 4096 = 16)
    (hn : size + 2 ^ e + 80 ≤ n) (h8 : e = 3 → size + 96 ≤ n)
    (ha : a + 16 = b + 63 + 2 ^ e - (b + 63 + 2 ^ e) % 2 ^ e) (hz : b + (n - 32) = a + z) :
    size + 16 ≤ z := by
  rcases Nat.lt_or_ge e 8 with hlt | hge
  · obtain rfl | rfl | rfl | rfl | rfl : e = 3 ∨ e = 4 ∨ e = 5 ∨ e = 6 ∨ e = 7 := by omega
    all_goals
      norm_num at ha hn
      omega
  · -- the block ends at a multiple of 256, and so does the front
    have hmod : 2 ^ e % 2 ^ 8 = 0 := two_pow_mod_of_le (Nat.pow_le_pow_right (by norm_num) hge)
    have hdvd : 2 ^ 8 ∣ a + 16 := by
      rw [ha]
      exact (Nat.dvd_of_mod_eq_zero hmod).trans (Nat.dvd_sub_mod _)
    have hle : a + 16 ≤ b + 63 + 2 ^ e := by omega
    norm_num at hmod hdvd
    omega

/-- The block that `cmpct_memalign` hands out holds the size, at the alignment. -/
theorem MemalignSize.fits {c : Config} {s : Heap} (h : MemalignSize size alignment a z)
    (ha : a % 8 = 0) (hfit : FitMemalign c size alignment s) :
    size + 16 ≤ z ∧ (alignment.isPowerOfTwo → alignment ∣ a + 16) := by
  obtain ⟨hreq, hsmall, hbig⟩ := hfit
  rcases h with ⟨hlt, hz⟩ | ⟨hge, b, y, hy, -, hend, -, hcut⟩
  · refine ⟨hz.fits (hsmall hlt).1, ?_⟩
    rintro ⟨e, rfl⟩
    have he : e ≤ 3 := (Nat.pow_le_pow_iff_right (by decide : 1 < 2)).1 (show 2 ^ e ≤ 2 ^ 3 by omega)
    exact (pow_dvd_pow 2 he).trans (show 2 ^ 3 ∣ a + 16 by norm_num; omega)
  · refine ⟨?_, fun _ => by rw [hcut]; exact Nat.dvd_sub_mod _⟩
    obtain hlt | ⟨⟨e, rfl⟩, hsum⟩ := hreq
    · omega
    have he : 3 ≤ e := (Nat.pow_le_pow_iff_right (by decide : 1 < 2)).1 (show 2 ^ 3 ≤ 2 ^ e by omega)
    rcases hy with ⟨-, hy⟩ | ⟨hlarge, rfl, hb, -⟩
    · omega
    · have hn := le_growSize (show size + 2 ^ e + 32 + 16 + 2 ^ 12 + 2 ^ 6 ≤ 2 ^ 64 by omega)
      refine le_of_large he hb (by omega) ?_ hcut hend
      rintro rfl
      rw [u64_of_lt (by omega)] at hlarge
      exact ((hbig hge).2 rfl).resolve_left (by omega)

end Sizes

/-! ### The invariant of a session -/

/-- The heap is in order, and every open request is a block of it that is large enough. -/
structure Tracked (R : List Region) (t : Session) : Prop where
  inv : Inv R t.heap
  unlocked : t.heap.locked = false
  nodup : (t.reqs.map Req.payload).Nodup
  live : ∀ p, p ∈ t.heap.live ↔ ∃ q ∈ t.reqs, q.payload = p
  fits : ∀ q ∈ t.reqs, ∃ f ∈ areasOf false R, q.payload = f.1 + 16 ∧ q.size + 16 ≤ f.2 ∧
    (q.alignment.isPowerOfTwo → q.alignment ∣ q.payload)

/-- An area lies in a region, between the sentinels. -/
theorem exists_region_of_area {R : List Region} {b : Bool} {f : ℕ × ℕ} (hf : f ∈ areasOf b R) :
    ∃ r ∈ R, r.base + r.sentinel ≤ f.1 ∧ f.1 + f.2 + 16 ≤ r.base + r.len := by
  obtain ⟨h, rfl, ha⟩ := Hole.exists_of_mem_areasOf hf
  refine ⟨h.region [⟨f.2, b⟩], by simp [Hole.fill], ?_⟩
  simp only [Region.len, Hole.region, total_append, total_cons, total_nil, ← ha, Hole.addr]
  omega

namespace Tracked

variable {R R' : List Region} {s s' : Heap} {reqs : List Req} {t : Session}

theorem sound (h : Tracked R t) : Sound t := by
  refine ⟨h.unlocked, h.live, R, h.inv.held, h.inv.core.header, fun q hq => ?_, ?_⟩
  · obtain ⟨f, hf, hp, hsize, halign⟩ := h.fits q hq
    obtain ⟨r, hr, hlo, hhi⟩ := exists_region_of_area hf
    refine ⟨⟨r, hr, by omega, by omega⟩, halign, fun n hn => ?_⟩
    obtain ⟨m, hm, hma, hms, -⟩ := h.inv.node_of_area hf
    have hroom := h.inv.core.room n hn
    rcases h.inv.core.eq_or_apart hm hn with rfl | hlt | hlt <;> omega
  · refine List.Nodup.pairwise_of_forall_ne (List.Nodup.of_map _ h.nodup) fun q hq q' hq' hne => ?_
    obtain ⟨f, hf, hp, hsize, -⟩ := h.fits q hq
    obtain ⟨f', hf', hp', hsize', -⟩ := h.fits q' hq'
    have hpne : q.payload ≠ q'.payload := fun e =>
      hne (List.inj_on_of_nodup_map h.nodup hq hq' e)
    have h₁ := h.inv.not_inside hf hf'
    have h₂ := h.inv.not_inside hf' hf
    simp only [Ranges.Apart]
    omega

variable (h : Tracked R ⟨s, reqs⟩)
include h

/-- The blocks of the open requests stay. -/
theorem mono (hinv : Inv R' s') (hun : s'.locked = false) (hlive : s'.live = s.live)
    (hkeep : ∀ f ∈ areasOf false R, f.1 + 16 ∈ s.live → f ∈ areasOf false R') :
    Tracked R' ⟨s', reqs⟩ := by
  refine ⟨hinv, hun, h.nodup, fun p => ?_, fun q hq => ?_⟩
  · rw [← h.live p]
    simp only [hlive]
  · obtain ⟨f, hf, hp, hrest⟩ := h.fits q hq
    exact ⟨f, hkeep f hf ((h.live _).2 ⟨q, hq, hp⟩), hp, hrest⟩

theorem answers (as : List (Option ℕ)) :
    Tracked R ⟨{ s with answers := as }, reqs⟩ :=
  h.mono (h.inv.lock s.locked as) h.unlocked rfl fun _ hf _ => hf

theorem grant {a z size alignment : ℕ} (hb : (a, z) ∈ areasOf false R)
    (hnew : a + 16 ∉ s.live) (hsize : size + 16 ≤ z)
    (halign : alignment.isPowerOfTwo → alignment ∣ a + 16) :
    Tracked R ⟨returned (a + 16, s), granted (a + 16) size alignment reqs⟩ := by
  have hne : a + 16 ≠ 0 := by omega
  have hnot : ∀ q ∈ reqs, q.payload ≠ a + 16 := fun q hq e => hnew ((h.live _).2 ⟨q, hq, e⟩)
  simp only [returned, granted, if_neg hne]
  refine ⟨⟨h.inv.ok, h.inv.apart, h.inv.core.congr rfl rfl rfl rfl, h.inv.held, h.inv.size,
    List.nodup_cons.2 ⟨hnew, h.inv.live.1⟩, fun p hp => ?_⟩, h.unlocked, ?_, fun p => ?_,
    fun q hq => ?_⟩
  · rcases List.mem_cons.1 hp with rfl | hp
    · exact ⟨(a, z), hb, rfl⟩
    · exact h.inv.live.2 p hp
  · simpa using ⟨hnot, h.nodup⟩
  · rw [List.mem_cons, h.live p]
    simp [eq_comm]
  · rcases List.mem_cons.1 hq with rfl | hq
    · exact ⟨(a, z), hb, rfl, hsize, halign⟩
    · exact h.fits q hq

/-- A request that is given up. -/
theorem close (payload : ℕ) :
    Tracked R ⟨{ s with live := s.live.erase payload }, closed payload reqs⟩ := by
  refine ⟨h.inv.erase payload, h.unlocked, ?_, fun p => ?_, fun q hq => ?_⟩
  · exact h.nodup.sublist (List.filter_sublist.map _)
  · simp only [h.inv.live.1.mem_erase_iff, h.live p, closed, List.mem_filter, decide_eq_true_eq]
    constructor
    · rintro ⟨hne, q, hq, rfl⟩
      exact ⟨q, ⟨hq, hne⟩, rfl⟩
    · rintro ⟨q, ⟨hq, hne⟩, rfl⟩
      exact ⟨hne, q, hq, rfl⟩
  · exact h.fits q (List.mem_filter.1 hq).1

theorem handed {a z size alignment : ℕ} (hh : Handed R s R' s' a z)
    (hun : s'.locked = false) (hsize : size + 16 ≤ z)
    (halign : alignment.isPowerOfTwo → alignment ∣ a + 16) :
    Tracked R' ⟨returned (a + 16, s'), granted (a + 16) size alignment reqs⟩ :=
  (h.mono hh.inv hun hh.live fun f hf _ => hh.keeps f hf).grant hh.block
    (hh.live ▸ hh.not_live h.inv) hsize halign

/-- No request is open at `NULL`. -/
theorem closed_null :
    s.live.erase 0 = s.live ∧ closed 0 reqs = reqs := by
  have hpos : ∀ q ∈ reqs, q.payload ≠ 0 := fun q hq => by
    obtain ⟨f, -, hp, -⟩ := h.fits q hq
    omega
  refine ⟨List.erase_of_not_mem fun h0 => ?_, ?_⟩
  · obtain ⟨q, hq, hp⟩ := (h.live 0).1 h0
    exact hpos q hq hp
  · exact List.filter_eq_self.2 fun q hq => by simpa using hpos q hq

end Tracked

section Steps

variable {c : Config} {R : List Region} {s s' : Heap} {t t' : Session} {op : Op} {p : ℕ}

theorem cmpctFree_unlocked {payload : ℕ} (hp : payload ≠ 0) (h : cmpctFree payload s = some s') :
    s'.locked = false := by
  simp only [cmpctFree, if_neg hp, Option.bind_eq_bind, Option.bind_eq_some_iff,
    Option.some.injEq] at h
  obtain ⟨-, -, -, -, rfl⟩ := h
  rfl

theorem cmpctTrim_unlocked (h : cmpctTrim s = some s') : s'.locked = false := by
  simp only [cmpctTrim, Option.bind_eq_bind, Option.bind_eq_some_iff, Option.some.injEq] at h
  obtain ⟨-, -, -, -, rfl⟩ := h
  rfl

theorem cmpctMemalign_unlocked {size alignment : ℕ} (h8 : 8 ≤ alignment)
    (h : cmpctMemalign c size alignment s = some (p, s')) : s'.locked = false := by
  simp only [cmpctMemalign, if_neg (show ¬alignment < 8 by omega), Option.bind_eq_bind,
    Option.bind_eq_some_iff] at h
  obtain ⟨⟨unaligned, s₁⟩, -, h⟩ := h
  split_ifs at h with h0 hne
  · simp only [Option.bind_eq_some_iff, Option.some.injEq, Prod.mk.injEq] at h
    obtain ⟨s₂, -, s₃, hs₃, -, rfl⟩ := h
    exact cmpctFree_unlocked h0 hs₃
  · simp only [Option.bind_eq_some_iff, Option.some.injEq, Prod.mk.injEq] at h
    obtain ⟨s₂, -, -, rfl⟩ := h
    rfl

theorem cmpctRealloc_unlocked {payload size : ℕ} (hp : payload ≠ 0)
    (h : cmpctRealloc c payload size s = some (p, s')) : s'.locked = false := by
  simp only [cmpctRealloc, if_neg hp, Option.bind_eq_bind, Option.bind_eq_some_iff] at h
  obtain ⟨⟨q, s₁⟩, -, h⟩ := h
  split_ifs at h
  simp only [Option.bind_eq_some_iff, Option.some.injEq, Prod.mk.injEq] at h
  obtain ⟨s₂, hs₂, -, rfl⟩ := h
  exact cmpctFree_unlocked hp hs₂

/-- A call that comes down to `cmpct_alloc`. -/
theorem Tracked.alloc {reqs : List Req} (h : Tracked R ⟨s, reqs⟩) {size alignment : ℕ}
    (hsize : size < 2 ^ 64) (hfit : FitAlloc c size s) (ha : alignment < 8)
    (hs : cmpctAlloc c size s = some (p, s')) :
    ∃ R', Tracked R' ⟨returned (p, s'), granted p size alignment reqs⟩ := by
  rcases cmpctAlloc_result h.unlocked hfit hs with ⟨rfl, as, rfl⟩ | ⟨hp, hun⟩
  · exact ⟨R, h.answers as⟩
  · rcases cmpctAlloc_handed h.inv hsize hs with ⟨rfl, -⟩ | ⟨R', a, z, rfl, hh, hz⟩
    · exact absurd rfl hp
    · have ha8 := (hh.inv.size_lt hh.block).2.2.2.1
      refine ⟨R', h.handed hh hun (hz.fits hfit.1) ?_⟩
      rintro ⟨e, rfl⟩
      have he : e ≤ 3 :=
        (Nat.pow_le_pow_iff_right (by decide : 1 < 2)).1 (show 2 ^ e ≤ 2 ^ 3 by omega)
      exact (pow_dvd_pow 2 he).trans (show 2 ^ 3 ∣ a + 16 by norm_num; simp only at ha8; omega)

/-- **One call keeps the requests met.** -/
theorem Tracked.step (h : Tracked R t) (hfit : Fit c t op)
    (hs : t.step c op = some (t', p)) : ∃ R', Tracked R' t' := by
  obtain ⟨s, reqs⟩ := t
  obtain ⟨⟨q, s'⟩, hcall, heq⟩ := Option.map_eq_some_iff.1 hs
  obtain ⟨rfl, rfl⟩ := Prod.mk.inj heq
  cases op with
  | alloc size answers => exact (h.answers answers).alloc (u64_lt _) hfit (by norm_num) hcall
  | free payload =>
    simp only [call] at hcall
    split_ifs at hcall with hp
    obtain ⟨s₁, hs₁, heq⟩ := Option.map_eq_some_iff.1 hcall
    obtain ⟨rfl, rfl⟩ := Prod.mk.inj heq
    have hclosed := h.close payload
    by_cases h0 : payload = 0
    · subst h0
      obtain rfl : { s with live := s.live.erase 0 } = s₁ := by simpa [cmpctFree] using hs₁
      exact ⟨R, hclosed⟩
    · obtain ⟨a, z, rfl, hb, hlive⟩ := h.inv.block_of_live (hp.resolve_left h0)
      obtain ⟨R', hinv', hlive', hkeep⟩ :=
        cmpctFree_freed hclosed.inv hb hlive (hfit.resolve_left h0) hs₁
      refine ⟨R', hclosed.mono hinv' (cmpctFree_unlocked h0 hs₁) hlive' fun f hf hl => ?_⟩
      exact hkeep f hf fun e => hlive (by rw [e] at hl; exact hl)
  | memalign size alignment answers =>
    have h₀ := h.answers answers
    rcases Nat.lt_or_ge (u64 alignment) 8 with h8 | h8
    · rw [call, cmpctMemalign, if_pos h8] at hcall
      exact h₀.alloc (u64_lt _) (hfit.2.1 h8) h8 hcall
    · have hun := cmpctMemalign_unlocked h8 hcall
      rcases cmpctMemalign_handed h₀.inv (u64_lt _) hfit.1 hcall with
        ⟨-, hlt, -⟩ | ⟨R', a, z, rfl, hh, hz⟩
      · omega
      · obtain ⟨hsize, halign⟩ := hz.fits (hh.inv.size_lt hh.block).2.2.2.1 hfit
        exact ⟨R', h₀.handed hh hun hsize halign⟩
  | realloc payload size answers =>
    simp only [call] at hcall
    split_ifs at hcall with hp
    have hclosed := (h.close payload).answers answers
    by_cases h0 : payload = 0
    · subst h0
      rw [cmpctRealloc, if_pos rfl] at hcall
      exact hclosed.alloc (u64_lt _) (hfit.2.1 rfl) (by norm_num) hcall
    · obtain ⟨a, z, rfl, hb, hlive⟩ := h.inv.block_of_live (hp.resolve_left h0)
      obtain ⟨R', hinv', hlive', hkeep, hp'⟩ :=
        cmpctRealloc_handed hclosed.inv (u64_lt _) hb hlive hfit.1 hcall
      have hmono := hclosed.mono hinv' (cmpctRealloc_unlocked h0 hcall) hlive' fun f hf hl =>
        hkeep f hf fun e => hlive (by rw [e] at hl; exact hl)
      rcases hp' with ⟨rfl, -⟩ | ⟨hnew, ⟨a', z'⟩, hf, rfl, hz'⟩
      · exact ⟨R', hmono⟩
      · refine ⟨R', hmono.grant hf (hlive' ▸ hnew) (hz'.fits (hfit.2.2 h0).1) fun _ => ?_⟩
        exact one_dvd _
  | trim =>
    obtain ⟨s₁, hs₁, heq⟩ := Option.map_eq_some_iff.1 hcall
    obtain ⟨rfl, rfl⟩ := Prod.mk.inj heq
    obtain ⟨R', hinv', hlive, hused⟩ := cmpctTrim_inv h.inv (h.inv.snug hfit) hs₁
    exact ⟨R', h.mono hinv' (cmpctTrim_unlocked hs₁) hlive fun f hf _ => hused ▸ hf⟩
  | store a v =>
    simp only [call] at hcall
    split_ifs at hcall with hw
    cases hcall
    refine ⟨R, h.mono ?_ h.unlocked rfl fun _ hf _ => hf⟩
    obtain ⟨-, ⟨p, hp, hle, hle'⟩ | hout⟩ := hw
    · obtain ⟨⟨b, z⟩, hb, rfl⟩ := h.inv.live.2 p hp
      rw [Nat.add_sub_cancel, h.inv.mem_size hb] at hle'
      exact h.inv.payload hb fun e he => Function.update_of_ne (by omega) ..
    · exact h.inv.storeOutside hout _

end Steps

/-! ### What a call promises -/

/-- The bytes a call asks for. -/
def Op.wants : Op → ℕ
  | .alloc size _ | .memalign size _ _ | .realloc _ size _ => u64 size
  | .free _ | .trim | .store _ _ => 0

/-- There is no memory for what the call allocates. -/
def CannotServe (c : Config) (s : Heap) : Op → Prop
  | .alloc size answers => CannotGet c (u64 size) { s with answers := answers }
  | .memalign size alignment answers =>
    CannotGet c (if u64 alignment < 8 then u64 size else u64 size + u64 alignment + 32 + 16)
      { s with answers := answers }
  | .realloc _ size answers => CannotGet c (u64 size) { s with answers := answers }
  | .free _ | .trim | .store _ _ => False

/-- **The promises of one call.**  When it returns, the requests are met; `cmpct_realloc` has
kept the bytes that were asked for before and are asked for now; a `NULL` for a request means
that nothing has changed.  When there is no memory, it does return, with that `NULL`. -/
structure Honoured (c : Config) (t : Session) (op : Op) : Prop where
  sound : ∀ t' p, t.step c op = some (t', p) → Sound t'
  copied : ∀ t' p payload size answers, op = .realloc payload size answers →
    t.step c op = some (t', p) → p ≠ 0 → ∀ q ∈ t.reqs, q.payload = payload →
    ∀ i < min q.size (u64 size), t'.heap.byte (p + i) = t.heap.byte (payload + i)
  unchanged : ∀ t', t.step c op = some (t', 0) → op.wants ≠ 0 →
    ∃ as, t' = ⟨{ t.heap with answers := as }, t.reqs⟩
  refused : CannotServe c t.heap op →
    ∃ as, t.step c op = some (⟨{ t.heap with answers := as }, t.reqs⟩, 0)

section Promises

variable {c : Config} {R : List Region} {t t' : Session} {op : Op}

/-- A call that asks for memory and returns NULL leaves the heap, but for the answers it used up. -/
theorem Tracked.unchanged (h : Tracked R t) (hfit : Fit c t op)
    (hs : t.step c op = some (t', 0)) (hwants : op.wants ≠ 0) :
    ∃ as, t' = ⟨{ t.heap with answers := as }, t.reqs⟩ := by
  obtain ⟨s, reqs⟩ := t
  obtain ⟨⟨q, s'⟩, hcall, heq⟩ := Option.map_eq_some_iff.1 hs
  obtain ⟨rfl, hq⟩ := Prod.mk.inj heq
  obtain rfl : q = 0 := hq
  -- `cmpct_alloc` returns `NULL` with the heap as it was
  have hnull : ∀ {size : ℕ} {answers : List (Option ℕ)},
      FitAlloc c size { s with answers := answers } →
      cmpctAlloc c size { s with answers := answers } = some (0, s') →
      ∃ as, s' = { s with answers := as } := fun {_ answers} hfit hcall => by
    have hlock : Heap.locked { s with answers := answers } = false := h.unlocked
    rcases cmpctAlloc_result hlock hfit hcall with ⟨-, as, has⟩ | ⟨hne, -⟩
    · exact ⟨as, has⟩
    · exact absurd rfl hne
  cases op with
  | alloc size answers =>
    obtain ⟨as, rfl⟩ := hnull hfit hcall
    exact ⟨as, rfl⟩
  | memalign size alignment answers =>
    rcases Nat.lt_or_ge (u64 alignment) 8 with h8 | h8
    · rw [call, cmpctMemalign, if_pos h8] at hcall
      obtain ⟨as, rfl⟩ := hnull (hfit.2.1 h8) hcall
      exact ⟨as, rfl⟩
    · rcases cmpctMemalign_handed (h.answers answers).inv (u64_lt _) hfit.1 hcall with
        ⟨-, hlt, -⟩ | ⟨R', a, z, h0, -⟩ <;> omega
  | realloc payload size answers =>
    simp only [call] at hcall
    split_ifs at hcall with hp
    by_cases h0 : payload = 0
    · subst h0
      obtain ⟨herase, hclosed⟩ := h.closed_null
      rw [cmpctRealloc, if_pos rfl] at hcall
      rw [herase] at hcall
      obtain ⟨as, rfl⟩ := hnull (hfit.2.1 rfl) hcall
      exact ⟨as, by simp [returned, Op.requests, granted, hclosed]⟩
    · obtain ⟨a, z, rfl, hb, hlive⟩ := h.inv.block_of_live (hp.resolve_left h0)
      obtain ⟨R', -, -, -, hp'⟩ := cmpctRealloc_handed ((h.close _).answers answers).inv
        (u64_lt _) hb hlive hfit.1 hcall
      rcases hp' with ⟨-, hzero⟩ | ⟨-, f, -, hf, -⟩
      · exact absurd hzero hwants
      · omega
  | free payload => exact absurd rfl hwants
  | trim => exact absurd rfl hwants
  | store a v => exact absurd rfl hwants

theorem Tracked.copied (h : Tracked R t) (hfit : Fit c t op) {payload size p : ℕ}
    {answers : List (Option ℕ)} (hop : op = .realloc payload size answers)
    (hs : t.step c op = some (t', p)) (hp : p ≠ 0) {q : Req} (hq : q ∈ t.reqs)
    (hqp : q.payload = payload) {i : ℕ} (hi : i < min q.size (u64 size)) :
    t'.heap.byte (p + i) = t.heap.byte (payload + i) := by
  subst hop
  obtain ⟨s, reqs⟩ := t
  obtain ⟨⟨p', s'⟩, hcall, heq⟩ := Option.map_eq_some_iff.1 hs
  obtain ⟨rfl, rfl⟩ := Prod.mk.inj heq
  obtain ⟨⟨a, z⟩, hb, hpa, hsize, -⟩ := h.fits q hq
  obtain rfl : payload = a + 16 := hqp.symm.trans hpa
  have hlive : a + 16 ∈ s.live := (h.live _).2 ⟨q, hq, hpa⟩
  rw [call, if_pos (.inr hlive)] at hcall
  have hbyte := cmpctRealloc_byte ((h.close _).answers answers).inv (u64_lt _) hb hfit.1 hcall hp
    (show i < u64 size by omega) (show i + 16 < z by simp only at hsize; omega)
  have hp' : p' ≠ 0 := hp
  simp only [returned, if_neg hp']
  exact hbyte

theorem Tracked.refused (h : Tracked R t) (hfit : Fit c t op) (hno : CannotServe c t.heap op) :
    ∃ as, t.step c op = some (⟨{ t.heap with answers := as }, t.reqs⟩, 0) := by
  obtain ⟨s, reqs⟩ := t
  have halloc : ∀ {size : ℕ} {answers : List (Option ℕ)},
      FitAlloc c size { s with answers := answers } →
      CannotGet c size { s with answers := answers } →
      ∃ as, cmpctAlloc c size { s with answers := answers } = some (0, { s with answers := as }) :=
    fun {_ answers} hfit hno => by
      have hlock : Heap.locked { s with answers := answers } = false := h.unlocked
      obtain ⟨as, has⟩ :=
        cmpctAlloc_refused hlock (hfit.2.resolve_right fun hn => hn hno) hno
      exact ⟨as, has⟩
  cases op with
  | alloc size answers =>
    obtain ⟨as, has⟩ := halloc hfit hno
    exact ⟨as, by simp [Session.step, call, has, returned, Op.requests, granted]⟩
  | memalign size alignment answers =>
    rcases Nat.lt_or_ge (u64 alignment) 8 with h8 | h8
    · rw [CannotServe, if_pos h8] at hno
      obtain ⟨as, has⟩ := halloc (hfit.2.1 h8) hno
      refine ⟨as, ?_⟩
      simp [Session.step, call, cmpctMemalign, h8, has, returned, Op.requests, granted]
    · rw [CannotServe, if_neg (by omega)] at hno
      exact absurd hno (hfit.2.2 h8).1
  | realloc payload size answers =>
    by_cases h0 : payload = 0
    · subst h0
      obtain ⟨herase, hclosed⟩ := h.closed_null
      obtain ⟨as, has⟩ := halloc (hfit.2.1 rfl) hno
      refine ⟨as, ?_⟩
      simp [Session.step, call, cmpctRealloc, herase, has, returned, Op.requests, granted, hclosed]
    · exact absurd hno (hfit.2.2 h0).2
  | free payload => exact hno.elim
  | trim => exact hno.elim
  | store a v => exact hno.elim

theorem Tracked.honoured (h : Tracked R t) (hfit : Fit c t op) : Honoured c t op where
  sound _ _ hs := by
    obtain ⟨R', h'⟩ := h.step hfit hs
    exact h'.sound
  copied _ _ _ _ _ hop hs hp _ hq hqp _ hi := h.copied hfit hop hs hp hq hqp hi
  unchanged _ hs hwants := h.unchanged hfit hs hwants
  refused hno := h.refused hfit hno

end Promises

section Runs

variable {c : Config}

theorem heapGrow_locked {size ptr : ℕ} {s s' : Heap} (h : heapGrow size none s = some (ptr, s')) :
    s'.locked = s.locked := by
  simp only [heapGrow] at h
  rcases pageAlloc_cases (growSize size / 4096) s with ⟨as, ha⟩ | ⟨p, as, hf, ha⟩
  · rw [ha] at h
    simp only [if_true, Option.some.injEq, Prod.mk.injEq] at h
    obtain ⟨-, rfl⟩ := h
    rfl
  · rw [ha] at h
    simp only [if_neg (Nat.ne_of_gt hf.2.1), addToHeap, createFreeArea, Option.bind_eq_bind,
      Option.bind_eq_some_iff, Option.some.injEq, Prod.mk.injEq] at h
    obtain ⟨s₁, ⟨s₂, ⟨i, -, rfl⟩, rfl⟩, -, rfl⟩ := h
    exact congrArg (·.2.1) (linkFreeArea_outer _ _ _).1

/-- The heap after `cmpct_init`, and no request. -/
theorem tracked_init {mem : ℕ → ℕ} {answers : List (Option ℕ)} {s : Heap}
    (h : cmpctInit c mem answers = some s) : ∃ R, Tracked R ⟨s, []⟩ := by
  obtain ⟨R, hinv⟩ := cmpctInit_inv h
  obtain ⟨⟨ptr, s₁⟩, hs₁, rfl⟩ := Option.map_eq_some_iff.1 h
  have hlive : s₁.live = [] := (heapGrow_inv (inv_initial mem answers) hs₁).2
  exact ⟨R, hinv, heapGrow_locked hs₁, List.nodup_nil, by simp [hlive], by simp⟩

end Runs

end Cmpct
end LittleKernel
