/-
# Doubly linked lists

A list of nodes whose links are two functions from a node to a node, `null` where
there is none.  `Linked next prev p l` says that the nodes of `l` are linked in
this order and that the node before the first is `p`, so the functions matter on
the nodes of `l` alone (`Linked.congr`).

`Linked.push` puts a node in front and `Linked.remove` takes one out of the
middle; each asks of the new links only what it needs on the nodes it keeps, so
that it does not matter how the links are stored.
-/

import Mathlib.Data.List.Nodup

namespace DList

variable {α : Type*} {null : α} {next prev next' prev' : α → α}

/-- The nodes of the list are linked in this order, after the node `p`. -/
def Linked (null : α) (next prev : α → α) : α → List α → Prop
  | _, [] => True
  | p, x :: xs => prev x = p ∧ next x = xs.headD null ∧ Linked null next prev x xs

theorem Linked.congr : ∀ {p : α} {l : List α}, Linked null next prev p l →
    (∀ x ∈ l, next' x = next x ∧ prev' x = prev x) → Linked null next' prev' p l
  | _, [], _, _ => trivial
  | _, x :: xs, ⟨hp, hn, h⟩, heq => by
      obtain ⟨hnx, hpx⟩ := heq x List.mem_cons_self
      exact ⟨hpx.trans hp, hnx.trans hn, h.congr fun y hy => heq y (List.mem_cons_of_mem _ hy)⟩

/-- A node of the list points forward to its successor. -/
theorem Linked.next_of_append : ∀ {p a : α} {xs ys : List α},
    Linked null next prev p (xs ++ a :: ys) → next a = ys.headD null
  | _, _, [], _, h => h.2.1
  | _, _, _ :: _, _, h => Linked.next_of_append h.2.2

/-- A node of the list points back to its predecessor. -/
theorem Linked.prev_of_append : ∀ {p a : α} {xs ys : List α},
    Linked null next prev p (xs ++ a :: ys) → prev a = xs.getLastD p
  | _, _, [], _, h => h.1
  | _, _, x :: xs, _, h => by
      rw [show prev _ = xs.getLastD x from Linked.prev_of_append h.2.2]
      cases xs <;> rfl

/-- The successor of a node is on the list. -/
theorem Linked.next_mem {p a : α} {xs ys : List α} (h : Linked null next prev p (xs ++ a :: ys))
    (h0 : next a ≠ null) : next a ∈ xs ++ ys := by
  rw [h.next_of_append] at h0 ⊢
  cases ys with
  | nil => exact absurd rfl h0
  | cons y ys => simp

/-- The predecessor of a node is on the list. -/
theorem Linked.prev_mem {a : α} {xs ys : List α}
    (h : Linked null next prev null (xs ++ a :: ys)) (h0 : prev a ≠ null) :
    prev a ∈ xs ++ ys := by
  rw [h.prev_of_append] at h0 ⊢
  cases xs with
  | nil => exact absurd rfl h0
  | cons x xs =>
    rw [List.getLastD_cons]
    exact List.mem_append_left _ List.getLastD_mem_cons

variable [DecidableEq α]

/-- **A new first node.**  It points to the old first node, which points back. -/
theorem Linked.push {a : α} {l : List α} (h : Linked null next prev null l) (hl : l.Nodup)
    (hna : next' a = l.headD null) (hpa : prev' a = null)
    (hnext : ∀ x ∈ l, next' x = next x)
    (hprev : ∀ x ∈ l, prev' x = if x = l.headD null then a else prev x) :
    Linked null next' prev' null (a :: l) := by
  refine ⟨hpa, hna, ?_⟩
  cases l with
  | nil => trivial
  | cons x xs =>
    obtain ⟨-, hn, hxs⟩ := h
    have hx := List.nodup_cons.1 hl
    refine ⟨by simpa using hprev x List.mem_cons_self, (hnext x List.mem_cons_self).trans hn,
      hxs.congr fun y hy => ⟨hnext y (List.mem_cons_of_mem _ hy), ?_⟩⟩
    have hne : y ≠ x := fun e => hx.1 (e ▸ hy)
    simpa [hne] using hprev y (List.mem_cons_of_mem _ hy)

/-- **A node taken out.**  Its neighbours are linked to each other. -/
theorem Linked.remove {a : α} : ∀ {p : α} {xs ys : List α},
    Linked null next prev p (xs ++ a :: ys) → (p :: xs ++ a :: ys).Nodup →
    null ∉ xs ++ a :: ys →
    (∀ x ∈ xs ++ ys, next' x = if x = prev a then next a else next x) →
    (∀ x ∈ xs ++ ys, prev' x = if x = next a then prev a else prev x) →
    Linked null next' prev' p (xs ++ ys)
  | p, [], [], _, _, _, _, _ => trivial
  | p, [], y :: ys, ⟨hpa, hna, hpy, hny, hys⟩, hnd, hnull, hnext, hprev => by
      -- the first node `y` that stays now comes after `p`; those behind it are as they were
      simp only [List.nil_append, List.headD_cons, List.mem_cons, not_or] at *
      simp only [List.cons_append, List.nil_append, List.nodup_cons, List.mem_cons, not_or] at hnd
      obtain ⟨⟨-, hpny, hpys⟩, -, hyys, -⟩ := hnd
      refine ⟨by rw [hprev y (.inl rfl), if_pos hna.symm, hpa], ?_, hys.congr fun z hz => ?_⟩
      · rw [hnext y (.inl rfl), hpa, if_neg (Ne.symm hpny), hny]
      · have hzp : z ≠ p := fun e => hpys (e ▸ hz)
        have hzy : z ≠ y := fun e => hyys (e ▸ hz)
        exact ⟨by rw [hnext z (.inr hz), hpa, if_neg hzp],
          by rw [hprev z (.inr hz), hna, if_neg hzy]⟩
  | p, x :: xs, ys, h, hnd, hnull, hnext, hprev => by
      obtain ⟨hpx, hnx, hxs⟩ := h
      have hpa : prev a = xs.getLastD x := hxs.prev_of_append
      have hna : next a = ys.headD null := hxs.next_of_append
      have hnd' : (x :: (xs ++ a :: ys)).Nodup := (List.nodup_cons.1 hnd).2
      have hx := (List.nodup_cons.1 hnd').1
      simp only [List.mem_append, List.mem_cons, not_or] at hx
      have hmem : x ∈ x :: xs ++ ys := by simp
      refine ⟨?_, ?_, hxs.remove hnd' (fun hn => hnull (List.mem_cons_of_mem _ hn))
        (fun z hz => hnext z (List.mem_cons_of_mem _ hz))
        (fun z hz => hprev z (List.mem_cons_of_mem _ hz))⟩
      · -- `x` comes before `a`, so it is not the node after `a`
        have hxn : x ≠ next a := by
          rw [hna]
          cases ys with
          | nil => exact fun e => hnull (by simp [← show x = null from e])
          | cons y ys => exact fun e => hx.2.2 (by simp [show x = y from e])
        rw [hprev x hmem, if_neg hxn, hpx]
      · rw [hnext x hmem, hpa]
        cases xs with
        | nil => simpa using hna
        | cons z zs =>
          have hxz : x ≠ (z :: zs).getLastD x := by
            rw [List.getLastD_cons]
            exact fun e => hx.1 (e ▸ List.getLastD_mem_cons)
          rw [if_neg hxz, hnx]
          rfl

end DList
