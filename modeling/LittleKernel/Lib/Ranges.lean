/-
# Ranges of addresses

A range is its first address and its length.  `Apart` ranges have no address in
common, `sum_le_of_apart` bounds how much of an address space a list of them can
take, and `cut` takes a range out of another one; `flatMap_cut` is the case that a
ledger of handed-out ranges needs, where the range taken out lies in one entry.

`cover l a` counts the ranges of `l` with the address `a`.  Two lists that cover every
address alike are two ways to cut up the same addresses, and a list that covers none twice
is one of ranges apart (`pairwise_apart_of_cover`).  `coalesce` puts a range into a list in
the order of the addresses and joins it with the neighbours it touches; what it gives has
gaps between its ranges (`Gapped`) where the list had them.
-/

import Mathlib.Algebra.GroupWithZero.Nat
import Mathlib.Data.Finset.Card
import Mathlib.Data.List.TakeWhile
import Mathlib.Order.Interval.Finset.Nat

namespace Ranges

/-- The two ranges have no address in common. -/
def Apart (q r : ℕ × ℕ) : Prop := q.1 + q.2 ≤ r.1 ∨ r.1 + r.2 ≤ q.1

theorem Apart.symm {q r : ℕ × ℕ} (h : Apart q r) : Apart r q := Or.symm h

/-- The addresses of a list of ranges. -/
def addresses (l : List (ℕ × ℕ)) : Finset ℕ :=
  l.foldr (fun q A => Finset.Ico q.1 (q.1 + q.2) ∪ A) ∅

variable {l : List (ℕ × ℕ)}

theorem mem_addresses {a : ℕ} : a ∈ addresses l ↔ ∃ q ∈ l, q.1 ≤ a ∧ a < q.1 + q.2 := by
  induction l with
  | nil => simp [addresses]
  | cons q l ih =>
    rw [addresses, List.foldr_cons, ← addresses, Finset.mem_union, ih]
    simp

theorem card_addresses (h : l.Pairwise Apart) : (addresses l).card = (l.map Prod.snd).sum := by
  induction l with
  | nil => rfl
  | cons q l ih =>
    obtain ⟨hq, hl⟩ := List.pairwise_cons.1 h
    have hd : Disjoint (Finset.Ico q.1 (q.1 + q.2)) (addresses l) := by
      rw [Finset.disjoint_left]
      intro a ha ha'
      obtain ⟨r, hr, h₁, h₂⟩ := mem_addresses.1 ha'
      obtain ⟨h₃, h₄⟩ := Finset.mem_Ico.1 ha
      rcases hq r hr with h | h <;> omega
    rw [addresses, List.foldr_cons, ← addresses, Finset.card_union_of_disjoint hd, ih hl,
      Nat.card_Ico, List.map_cons, List.sum_cons, Nat.add_sub_cancel_left]

/-- **Ranges apart from each other fit side by side.** -/
theorem sum_le_of_apart {lo hi : ℕ} (h : l.Pairwise Apart)
    (hin : ∀ q ∈ l, lo ≤ q.1 ∧ q.1 + q.2 ≤ hi) : (l.map Prod.snd).sum ≤ hi - lo := by
  rw [← card_addresses h, ← Nat.card_Ico]
  refine Finset.card_le_card fun a ha => ?_
  obtain ⟨q, hq, h₁, h₂⟩ := mem_addresses.1 ha
  have := hin q hq
  exact Finset.mem_Ico.2 ⟨by omega, by omega⟩

/-- What is left of the range `q` without `[p, p + n)`. -/
def cut (p n : ℕ) (q : ℕ × ℕ) : List (ℕ × ℕ) :=
  if p + n ≤ q.1 ∨ q.1 + q.2 ≤ p then [q]
  else
    (if q.1 < p then [(q.1, p - q.1)] else []) ++
      if p + n < q.1 + q.2 then [(p + n, q.1 + q.2 - (p + n))] else []

theorem cut_self {p n : ℕ} (hn : 0 < n) : cut p n (p, n) = [] := by
  rw [cut, if_neg (by simp only; omega)]
  simp

theorem cut_front {p n k : ℕ} (hk : 0 < k) (hkn : k < n) :
    cut p k (p, n) = [(p + k, n - k)] := by
  rw [cut, if_neg (by simp only; omega), if_neg (by simp), if_pos (by simp only; omega),
    List.nil_append]
  simp only [List.cons.injEq, Prod.mk.injEq, and_true, true_and]
  omega

theorem cut_back {p n k : ℕ} (hk : k < n) (hk0 : 0 < k) :
    cut (p + k) (n - k) (p, n) = [(p, k)] := by
  rw [cut, if_neg (by simp only; omega), if_pos (by simp only; omega), if_neg (by simp only; omega),
    List.append_nil]
  simp

theorem flatMap_cut_of_apart {p n : ℕ} (h : ∀ q ∈ l, Apart (p, n) q) : l.flatMap (cut p n) = l := by
  induction l with
  | nil => rfl
  | cons q l ih =>
    have hq : p + n ≤ q.1 ∨ q.1 + q.2 ≤ p := h q List.mem_cons_self
    rw [List.flatMap_cons, ih fun r hr => h r (List.mem_cons_of_mem _ hr), cut, if_pos hq,
      List.singleton_append]

variable {q : ℕ × ℕ}

/-- The range taken out lies in the entry `q`, and the entries are apart. -/
theorem flatMap_cut {p n : ℕ} {l₁ l₂ : List (ℕ × ℕ)}
    (h : (l₁ ++ q :: l₂).Pairwise Apart) (hp : q.1 ≤ p) (hn : p + n ≤ q.1 + q.2) :
    (l₁ ++ q :: l₂).flatMap (cut p n) = l₁ ++ cut p n q ++ l₂ := by
  obtain ⟨-, h₂, h₁⟩ := List.pairwise_append.1 h
  have hl₁ : ∀ r ∈ l₁, Apart (p, n) r := fun r hr => by
    rcases h₁ r hr q List.mem_cons_self with h | h
    · exact .inr (by simp only; omega)
    · exact .inl (by simp only; omega)
  have hl₂ : ∀ r ∈ l₂, Apart (p, n) r := fun r hr => by
    rcases (List.pairwise_cons.1 h₂).1 r hr with h | h
    · exact .inl (by simp only; omega)
    · exact .inr (by simp only; omega)
  rw [List.flatMap_append, List.flatMap_cons, flatMap_cut_of_apart hl₁, flatMap_cut_of_apart hl₂,
    List.append_assoc]

/-! ### What a list of ranges covers -/

/-- 1 if the range has the address. -/
def hits (a : ℕ) (q : ℕ × ℕ) : ℕ := if q.1 ≤ a ∧ a < q.1 + q.2 then 1 else 0

/-- How many of the ranges have the address. -/
def cover (l : List (ℕ × ℕ)) (a : ℕ) : ℕ := (l.map (hits a)).sum

@[simp] theorem cover_nil (a : ℕ) : cover [] a = 0 := rfl

@[simp] theorem cover_cons (q : ℕ × ℕ) (l : List (ℕ × ℕ)) (a : ℕ) :
    cover (q :: l) a = hits a q + cover l a := by
  simp [cover]

@[simp] theorem cover_append (l m : List (ℕ × ℕ)) (a : ℕ) :
    cover (l ++ m) a = cover l a + cover m a := by
  simp [cover]

theorem cover_pos {a : ℕ} : 0 < cover l a ↔ ∃ q ∈ l, q.1 ≤ a ∧ a < q.1 + q.2 := by
  induction l with
  | nil => simp
  | cons q l ih =>
    rw [cover_cons, hits, Nat.add_pos_iff_pos_or_pos, ih]
    simp only [List.mem_cons, exists_eq_or_imp]
    refine or_congr_left ?_
    split_ifs with h <;> simp [h]

/-- Two ranges that meet are one. -/
theorem hits_join (a p m n : ℕ) : hits a (p, m + n) = hits a (p, m) + hits a (p + m, n) := by
  simp only [hits]
  split_ifs <;> omega

/-- **No address twice, no two ranges that meet.** -/
theorem pairwise_apart_of_cover (hpos : ∀ q ∈ l, 0 < q.2)
    (h : ∀ a, cover l a ≤ 1) : l.Pairwise Apart := by
  induction l with
  | nil => exact .nil
  | cons q l ih =>
    have htail : ∀ a, cover l a ≤ 1 := fun a => by
      have := h a
      rw [cover_cons] at this
      omega
    refine List.pairwise_cons.2
      ⟨fun r hr => ?_, ih (fun r hr => hpos r (List.mem_cons_of_mem _ hr)) htail⟩
    have hq := hpos q List.mem_cons_self
    have hr' := hpos r (List.mem_cons_of_mem _ hr)
    -- two ranges that meet have the later of their starts in common
    by_contra hmeet
    have hmeet : ¬(q.1 + q.2 ≤ r.1 ∨ r.1 + r.2 ≤ q.1) := hmeet
    have := h (max q.1 r.1)
    have hcover : 0 < cover l (max q.1 r.1) := cover_pos.2 ⟨r, hr, by omega, by omega⟩
    rw [cover_cons, hits, if_pos ⟨by omega, by omega⟩] at this
    omega

/-- Ranges apart from each other have no address twice. -/
theorem cover_le_one (h : l.Pairwise Apart) (a : ℕ) : cover l a ≤ 1 := by
  induction l with
  | nil => exact Nat.zero_le 1
  | cons q l ih =>
    obtain ⟨hq, hl⟩ := List.pairwise_cons.1 h
    have hcover := ih hl
    rw [cover_cons, hits]
    split_ifs with ha
    · have hnone : ¬0 < cover l a := fun hpos => by
        obtain ⟨r, hr, h₁, h₂⟩ := cover_pos.1 hpos
        rcases hq r hr with h | h <;> omega
      omega
    · omega

theorem cover_cut (p n : ℕ) (q : ℕ × ℕ) (a : ℕ) :
    cover (cut p n q) a = if p ≤ a ∧ a < p + n then 0 else hits a q := by
  rw [cut]
  split_ifs <;> simp only [cover_append, cover_cons, cover_nil, hits] <;> split_ifs <;> omega

theorem cover_flatMap_cut (p n : ℕ) (l : List (ℕ × ℕ)) (a : ℕ) :
    cover (l.flatMap (cut p n)) a = if p ≤ a ∧ a < p + n then 0 else cover l a := by
  induction l with
  | nil => simp
  | cons q l ih =>
    rw [List.flatMap_cons, cover_append, ih, cover_cut, cover_cons]
    split_ifs <;> rfl

/-! ### Lists with gaps -/

/-- The ranges are in the order of their addresses, and no two of them touch. -/
def Gapped (l : List (ℕ × ℕ)) : Prop := l.Pairwise fun q r => q.1 + q.2 < r.1

theorem Gapped.not_mem_left {A D : List (ℕ × ℕ)} (h : Gapped (A ++ q :: D)) :
    q.1 ∉ A.map Prod.fst := fun hq => by
  obtain ⟨r, hr, hrq⟩ := List.mem_map.1 hq
  have := (List.pairwise_append.1 h).2.2 r hr q List.mem_cons_self
  omega

theorem Gapped.eq_of_fst_eq (h : Gapped l) {q r : ℕ × ℕ} (hq : q ∈ l)
    (hr : r ∈ l) (heq : q.1 = r.1) : q = r := by
  by_contra hne
  have hsym : l.Pairwise fun q r => q.1 ≠ r.1 := h.imp fun h => by omega
  have : Std.Symm fun q r : ℕ × ℕ => q.1 ≠ r.1 := ⟨fun _ _ h => h.symm⟩
  exact hsym.forall hq hr hne heq

/-- Ranges inside a range of the list, in its place. -/
theorem Gapped.within {A D M : List (ℕ × ℕ)} (h : Gapped (A ++ q :: D))
    (hM : Gapped M) (hin : ∀ r ∈ M, q.1 ≤ r.1 ∧ r.1 + r.2 ≤ q.1 + q.2) :
    Gapped (A ++ (M ++ D)) := by
  obtain ⟨hA, hqD, hAD⟩ := List.pairwise_append.1 h
  obtain ⟨hq, hD⟩ := List.pairwise_cons.1 hqD
  refine List.pairwise_append.2 ⟨hA, List.pairwise_append.2 ⟨hM, hD, fun r hr t ht => ?_⟩, ?_⟩
  · have := hin r hr
    have := hq t ht
    omega
  · intro r hr t ht
    rcases List.mem_append.1 ht with ht | ht
    · have := hin t ht
      have := hAD r hr q List.mem_cons_self
      omega
    · exact hAD r hr t (List.mem_cons_of_mem _ ht)

/-- The range `x` behind the ranges `before`, joined with the last of them if it touches it. -/
def joinLast (before : List (ℕ × ℕ)) (x : ℕ × ℕ) : List (ℕ × ℕ) × (ℕ × ℕ) :=
  match before.getLast? with
  | some l => if l.1 + l.2 = x.1 then (before.dropLast, (l.1, l.2 + x.2)) else (before, x)
  | none => (before, x)

/-- The range `x` in front of the ranges `after`, joined with the first of them if it touches
it. -/
def joinNext (x : ℕ × ℕ) : List (ℕ × ℕ) → (ℕ × ℕ) × List (ℕ × ℕ)
  | n :: after => if x.1 + x.2 = n.1 then ((x.1, x.2 + n.2), after) else (x, n :: after)
  | [] => (x, [])

/-- The ranges that start at or before `x`. -/
def upTo (x : ℕ × ℕ) (l : List (ℕ × ℕ)) : List (ℕ × ℕ) := l.takeWhile (·.1 ≤ x.1)

/-- The ranges from the first on that starts behind `x`. -/
def beyond (x : ℕ × ℕ) (l : List (ℕ × ℕ)) : List (ℕ × ℕ) := l.dropWhile (·.1 ≤ x.1)

/-- The range that `x` becomes a part of. -/
def joined (x : ℕ × ℕ) (l : List (ℕ × ℕ)) : ℕ × ℕ :=
  (joinNext (joinLast (upTo x l) x).2 (beyond x l)).1

/-- The range `x` in its place. -/
def coalesce (x : ℕ × ℕ) (l : List (ℕ × ℕ)) : List (ℕ × ℕ) :=
  (joinLast (upTo x l) x).1 ++
    joined x l :: (joinNext (joinLast (upTo x l) x).2 (beyond x l)).2

theorem joinLast_cases (before : List (ℕ × ℕ)) (x : ℕ × ℕ) :
    (joinLast before x = (before, x) ∧ ∀ l ∈ before.getLast?, l.1 + l.2 ≠ x.1) ∨
      ∃ init l, before = init ++ [l] ∧ l.1 + l.2 = x.1 ∧
        joinLast before x = (init, (l.1, l.2 + x.2)) := by
  rcases List.eq_nil_or_concat' before with rfl | ⟨init, l, rfl⟩
  · exact .inl ⟨rfl, by simp⟩
  · by_cases h : l.1 + l.2 = x.1
    · exact .inr ⟨init, l, rfl, h, by simp [joinLast, h]⟩
    · exact .inl ⟨by simp [joinLast, h], by simpa using h⟩

theorem joinNext_cases (x : ℕ × ℕ) (after : List (ℕ × ℕ)) :
    (joinNext x after = (x, after) ∧ ∀ n ∈ after.head?, x.1 + x.2 ≠ n.1) ∨
      ∃ n rest, after = n :: rest ∧ x.1 + x.2 = n.1 ∧
        joinNext x after = ((x.1, x.2 + n.2), rest) := by
  cases after with
  | nil => exact .inl ⟨rfl, by simp⟩
  | cons n rest =>
    by_cases h : x.1 + x.2 = n.1
    · exact .inr ⟨n, rest, rfl, h, by simp [joinNext, h]⟩
    · exact .inl ⟨by simp [joinNext, h], by simpa using h⟩

/-- **Nothing is lost or added.**  A quantity that adds up where ranges are joined is for the
new list what it is for `x` and the old list together. -/
theorem sum_coalesce {f : ℕ × ℕ → ℕ} (hf : ∀ p m n, f (p, m + n) = f (p, m) + f (p + m, n))
    (x : ℕ × ℕ) (l : List (ℕ × ℕ)) : ((coalesce x l).map f).sum = f x + (l.map f).sum := by
  have hlast : ∀ before : List (ℕ × ℕ), ((joinLast before x).1.map f).sum + f (joinLast before x).2 =
      (before.map f).sum + f x := fun before => by
    rcases joinLast_cases before x with ⟨h, -⟩ | ⟨init, l, rfl, hx, h⟩
    · rw [h]
    · rw [h, hf, hx]
      simp [Nat.add_assoc]
  have hnext : ∀ (y : ℕ × ℕ) (after : List (ℕ × ℕ)), f (joinNext y after).1 +
      ((joinNext y after).2.map f).sum = f y + (after.map f).sum := fun y after => by
    rcases joinNext_cases y after with ⟨h, -⟩ | ⟨n, rest, rfl, hy, h⟩
    · rw [h]
    · rw [h, hf, hy]
      simp [Nat.add_assoc]
  have hsplit : (l.map f).sum = ((upTo x l).map f).sum + ((beyond x l).map f).sum := by
    rw [← List.sum_append, ← List.map_append, upTo, beyond, List.takeWhile_append_dropWhile]
  rw [coalesce, List.map_append, List.sum_append, List.map_cons, List.sum_cons, joined, hnext,
    hsplit]
  have := hlast (upTo x l)
  omega

theorem cover_coalesce (x : ℕ × ℕ) (l : List (ℕ × ℕ)) (a : ℕ) :
    cover (coalesce x l) a = hits a x + cover l a :=
  sum_coalesce (hits_join a) x l

section InPlace

variable {x : ℕ × ℕ}

theorem mem_of_mem_upTo (h : q ∈ upTo x l) : q ∈ l :=
  (List.takeWhile_sublist _).subset h

theorem mem_of_mem_beyond (h : q ∈ beyond x l) : q ∈ l :=
  (List.dropWhile_sublist _).subset h

/-- What comes before `x` ends before it. -/
theorem end_le_of_mem_upTo (hx : 0 < x.2) (hapart : ∀ q ∈ l, Apart x q)
    (hq : q ∈ upTo x l) : q.1 + q.2 ≤ x.1 := by
  have hle : q.1 ≤ x.1 := by simpa using List.mem_takeWhile_imp hq
  rcases hapart q (mem_of_mem_upTo hq) with h | h
  · omega
  · exact h

/-- What comes after `x` starts behind it. -/
theorem end_le_of_mem_beyond (hl : Gapped l) (hapart : ∀ q ∈ l, Apart x q)
    (hq : q ∈ beyond x l) : x.1 + x.2 ≤ q.1 := by
  have hgt : x.1 < q.1 := by
    have hsub : Gapped (beyond x l) := hl.sublist (List.dropWhile_sublist _)
    cases hd : beyond x l with
    | nil => simp [hd] at hq
    | cons r rest =>
      have hr : x.1 < r.1 := by
        have := List.head?_dropWhile_not (fun q : ℕ × ℕ => decide (q.1 ≤ x.1)) l
        rw [beyond] at hd
        simpa [hd] using this
      rw [hd] at hsub hq
      rcases List.mem_cons.1 hq with rfl | hq
      · exact hr
      · have := (List.pairwise_cons.1 hsub).1 q hq
        omega
  rcases hapart q (mem_of_mem_beyond hq) with h | h
  · exact h
  · omega

end InPlace

/-- **Gaps stay gaps.** -/
theorem gapped_coalesce {x : ℕ × ℕ} (hx : 0 < x.2) (hl : Gapped l)
    (hapart : ∀ q ∈ l, Apart x q) : Gapped (coalesce x l) := by
  have hbefore := fun q => end_le_of_mem_upTo hx hapart (q := q)
  have hafter := fun q => end_le_of_mem_beyond hl hapart (q := q)
  have hsplit : Gapped (upTo x l ++ beyond x l) := by
    rwa [upTo, beyond, List.takeWhile_append_dropWhile]
  obtain ⟨hA, hB, hAB⟩ := List.pairwise_append.1 hsplit
  -- the joined range `y` still starts behind what is before it and ends before what is after
  obtain ⟨hA', hlt, hend⟩ : Gapped (joinLast (upTo x l) x).1 ∧
      (∀ q ∈ (joinLast (upTo x l) x).1, q.1 + q.2 < (joinLast (upTo x l) x).2.1) ∧
      (joinLast (upTo x l) x).2.1 + (joinLast (upTo x l) x).2.2 = x.1 + x.2 := by
    rcases joinLast_cases (upTo x l) x with ⟨h, hne⟩ | ⟨init, r, hr, hx', h⟩
    · rw [h]
      refine ⟨hA, fun q hq => show q.1 + q.2 < x.1 from ?_, rfl⟩
      rcases List.eq_nil_or_concat' (upTo x l) with h0 | ⟨init, r, hr⟩
      · simp [h0] at hq
      · rw [hr] at hA hq hne hbefore
        have hne' : r.1 + r.2 ≠ x.1 := by simpa using hne
        have hr' := hbefore r (by simp)
        rcases List.mem_append.1 hq with hq | hq
        · have := (List.pairwise_append.1 hA).2.2 q hq r (by simp)
          omega
        · rw [List.mem_singleton.1 hq]
          omega
    · rw [h]
      rw [hr] at hA
      obtain ⟨hinit, -, hlt⟩ := List.pairwise_append.1 hA
      exact ⟨hinit, fun q hq => hlt q hq r (by simp), by simp only; omega⟩
  have hsub : ∀ q ∈ (joinLast (upTo x l) x).1, q ∈ upTo x l := fun q hq => by
    rcases joinLast_cases (upTo x l) x with ⟨h, -⟩ | ⟨init, r, hr, -, h⟩
    · rwa [h] at hq
    · rw [h] at hq
      rw [hr]
      exact List.mem_append_left _ hq
  have hall : ∀ q ∈ beyond x l, ∀ r ∈ (joinLast (upTo x l) x).1, r.1 + r.2 < q.1 :=
    fun q hq r hr => hAB r (hsub r hr) q hq
  rw [coalesce, joined]
  refine List.pairwise_append.2 ⟨hA', ?_, ?_⟩
  · rcases joinNext_cases (joinLast (upTo x l) x).2 (beyond x l) with
      ⟨h, hne⟩ | ⟨n, rest, hn, -, h⟩
    · rw [h]
      refine List.pairwise_cons.2 ⟨fun q hq => ?_, hB⟩
      show (joinLast (upTo x l) x).2.1 + (joinLast (upTo x l) x).2.2 < q.1
      cases hd : beyond x l with
      | nil => simp [hd] at hq
      | cons n rest =>
        have hn := hafter n (by simp [hd])
        have hne' := hne n (by simp [hd])
        rw [hd] at hq hB
        rcases List.mem_cons.1 hq with rfl | hq
        · omega
        · have := (List.pairwise_cons.1 hB).1 q hq
          omega
    · rw [h]
      rw [hn] at hB hafter
      obtain ⟨hn', hrest⟩ := List.pairwise_cons.1 hB
      have hstart := hafter n (by simp)
      refine List.pairwise_cons.2 ⟨fun q hq => ?_, hrest⟩
      have := hn' q hq
      simp only
      omega
  · intro q hq r hr
    rcases joinNext_cases (joinLast (upTo x l) x).2 (beyond x l) with ⟨h, -⟩ | ⟨n, rest, hn, -, h⟩
    all_goals
      rw [h] at hr
      rcases List.mem_cons.1 hr with rfl | hr
    · exact hlt q hq
    · exact hall r hr q hq
    · exact hlt q hq
    · exact hall r (hn ▸ List.mem_cons_of_mem _ hr) q hq

/-- What holds of `x`, of the ranges of the list and of ranges joined from such holds of the
ranges of the new list. -/
theorem forall_coalesce {P : ℕ × ℕ → Prop} {x : ℕ × ℕ} (hx : P x)
    (hl : ∀ q ∈ l, P q) (hjoin : ∀ q r, P q → P r → P (q.1, q.2 + r.2)) :
    ∀ q ∈ coalesce x l, P q := by
  have hA : ∀ q ∈ upTo x l, P q := fun q hq => hl q (mem_of_mem_upTo hq)
  have hB : ∀ q ∈ beyond x l, P q := fun q hq => hl q (mem_of_mem_beyond hq)
  have hlast : (∀ q ∈ (joinLast (upTo x l) x).1, P q) ∧ P (joinLast (upTo x l) x).2 := by
    rcases joinLast_cases (upTo x l) x with ⟨h, -⟩ | ⟨init, r, hr, -, h⟩
    · rw [h]
      exact ⟨hA, hx⟩
    · rw [hr] at hA
      rw [h]
      exact ⟨fun q hq => hA q (List.mem_append_left _ hq), hjoin r x (hA r (by simp)) hx⟩
  intro q hq
  rw [coalesce, joined] at hq
  rcases List.mem_append.1 hq with hq | hq
  · exact hlast.1 q hq
  · rcases joinNext_cases (joinLast (upTo x l) x).2 (beyond x l) with ⟨h, -⟩ | ⟨n, rest, hn, -, h⟩
    · rw [h] at hq
      rcases List.mem_cons.1 hq with rfl | hq
      · exact hlast.2
      · exact hB q hq
    · rw [hn] at hB
      rw [h] at hq
      rcases List.mem_cons.1 hq with rfl | hq
      · exact hjoin _ n hlast.2 (hB n List.mem_cons_self)
      · exact hB q (List.mem_cons_of_mem _ hq)

/-- The other ranges of the new list are from the old one. -/
theorem eq_joined_or_mem {x q : ℕ × ℕ} (h : q ∈ coalesce x l) : q = joined x l ∨ q ∈ l := by
  rcases List.mem_append.1 h with h | h
  · right
    rcases joinLast_cases (upTo x l) x with ⟨hj, -⟩ | ⟨init, r, hr, -, hj⟩
    · exact mem_of_mem_upTo (hj ▸ h)
    · refine mem_of_mem_upTo (hr ▸ List.mem_append_left _ ?_)
      rwa [hj] at h
  · refine (List.mem_cons.1 h).imp_right fun h => ?_
    rcases joinNext_cases (joinLast (upTo x l) x).2 (beyond x l) with
      ⟨hj, -⟩ | ⟨n, rest, hn, -, hj⟩
    · exact mem_of_mem_beyond (hj ▸ h)
    · refine mem_of_mem_beyond (hn ▸ List.mem_cons_of_mem _ ?_)
      rwa [hj] at h

theorem joined_mem_coalesce (x : ℕ × ℕ) (l : List (ℕ × ℕ)) : joined x l ∈ coalesce x l :=
  List.mem_append_right _ List.mem_cons_self

/-- It starts where `x` or the range before it starts. -/
theorem joined_fst (x : ℕ × ℕ) (l : List (ℕ × ℕ)) :
    (joined x l).1 = (joinLast (upTo x l) x).2.1 := by
  rw [joined]
  rcases joinNext_cases (joinLast (upTo x l) x).2 (beyond x l) with ⟨h, -⟩ | ⟨n, rest, -, -, h⟩ <;>
    rw [h]

theorem joined_fst_mem (x : ℕ × ℕ) (l : List (ℕ × ℕ)) : ∃ q ∈ x :: l, q.1 = (joined x l).1 := by
  rw [joined_fst]
  rcases joinLast_cases (upTo x l) x with ⟨h, -⟩ | ⟨init, r, hr, -, h⟩
  · exact ⟨x, List.mem_cons_self, by rw [h]⟩
  · have hmem : r ∈ upTo x l := hr ▸ List.mem_append_right _ List.mem_cons_self
    exact ⟨r, List.mem_cons_of_mem _ (mem_of_mem_upTo hmem), by rw [h]⟩

end Ranges
