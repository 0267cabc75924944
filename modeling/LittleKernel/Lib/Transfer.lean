/-
# A copy made in pieces

A driver that may move only so much at a time cuts one copy into pieces.  Each
`Piece` carries what was really moved (`dst`, `src`, `len`) beside the share of
the whole it was meant for (`off`, `size`).  When the shares tile the whole and
no piece reaches past its share, the pieces make the copy they were cut from,
whatever the contents, exactly when every piece is its share
(`runPieces_eq_copy_iff`).  That a piece which misses its share is always
noticed is the part with an argument: the last such piece is alone in touching
its share, the earlier ones stop short of it and the later ones start behind.
-/

import LittleKernel.Lib.Memory
import Mathlib.Logic.Nontrivial.Basic

namespace Memory

variable {α : Type*}

structure Piece where
  dst : ℕ
  src : ℕ
  len : ℕ
  off : ℕ
  size : ℕ
  deriving DecidableEq

/-- The same piece moved the other way. -/
def Piece.swap (p : Piece) : Piece := { p with dst := p.src, src := p.dst }

/-- `p` is its share of the copy from `b` to `a`. -/
def Piece.Exact (a b : ℕ) (p : Piece) : Prop :=
  p.dst = a + p.off ∧ p.src = b + p.off ∧ p.len = p.size

/-- `p` reaches nowhere past its share. -/
def Piece.Within (a b : ℕ) (p : Piece) : Prop :=
  p.dst ≤ a + p.off ∧ p.src ≤ b + p.off ∧ p.len ≤ p.size ∧ 0 < p.size

theorem Piece.swap_exact {a b : ℕ} {p : Piece} : p.swap.Exact a b ↔ p.Exact b a := by
  simp only [Piece.Exact, Piece.swap]
  exact ⟨fun ⟨h₁, h₂, h₃⟩ => ⟨h₂, h₁, h₃⟩, fun ⟨h₁, h₂, h₃⟩ => ⟨h₂, h₁, h₃⟩⟩

theorem Piece.swap_within {a b : ℕ} {p : Piece} : p.swap.Within a b ↔ p.Within b a := by
  simp only [Piece.Within, Piece.swap]
  exact ⟨fun ⟨h₁, h₂, h₃⟩ => ⟨h₂, h₁, h₃⟩, fun ⟨h₁, h₂, h₃⟩ => ⟨h₂, h₁, h₃⟩⟩

/-- The shares of the pieces tile `[k, e)` from left to right. -/
def Tiles : ℕ → ℕ → List Piece → Prop
  | k, e, [] => k = e
  | k, e, p :: ps => p.off = k ∧ Tiles (k + p.size) e ps

theorem Tiles.le : ∀ {ps : List Piece} {k e : ℕ}, Tiles k e ps → k ≤ e
  | [], _, _, h => Nat.le_of_eq h
  | _ :: _, _, _, h => Nat.le_trans (Nat.le_add_right _ _) h.2.le

theorem Tiles.swap : ∀ {ps : List Piece} {k e : ℕ}, Tiles k e ps → Tiles k e (ps.map Piece.swap)
  | [], _, _, h => h
  | _ :: _, _, _, h => ⟨h.1, h.2.swap⟩

/-- The pieces, one after the other. -/
def runPieces (src dst : ℕ → α) (ps : List Piece) : ℕ → α :=
  ps.foldl (fun m p => copy m p.dst src p.src p.len) dst

theorem runPieces_cons (src dst : ℕ → α) (p : Piece) (ps : List Piece) :
    runPieces src dst (p :: ps) = runPieces src (copy dst p.dst src p.src p.len) ps := rfl

/-- What ends up at `i` depends on what was at `i` only. -/
theorem runPieces_congr (src : ℕ → α) {i : ℕ} :
    ∀ (ps : List Piece) {dst dst' : ℕ → α}, dst i = dst' i →
      runPieces src dst ps i = runPieces src dst' ps i
  | [], _, _, h => h
  | p :: ps, dst, dst', h => runPieces_congr src ps (by simp only [copy, h])

variable {a b e : ℕ}

theorem runPieces_of_exact (src : ℕ → α) :
    ∀ {ps : List Piece} {k : ℕ} (dst : ℕ → α), Tiles k e ps → (∀ p ∈ ps, p.Exact a b) →
      runPieces src dst ps = copy dst (a + k) src (b + k) (e - k)
  | [], k, dst, h, _ => by
      obtain rfl : k = e := h
      simp [runPieces]
  | p :: ps, k, dst, ⟨hoff, h⟩, hex => by
      obtain ⟨h₁, h₂, h₃⟩ := hex p List.mem_cons_self
      have hle := h.le
      rw [runPieces_cons, runPieces_of_exact src _ h fun q hq => hex q (List.mem_cons_of_mem _ hq),
        h₁, h₂, h₃, hoff]
      funext i
      rcases Nat.lt_or_ge i (a + (k + p.size)) with hi | hi
      · rw [copy_of_not_mem (.inl hi)]
        rcases Nat.lt_or_ge i (a + k) with hi' | hi'
        · rw [copy_of_not_mem (.inl hi'), copy_of_not_mem (.inl hi')]
        · rw [copy_of_mem hi' (by omega), copy_of_mem hi' (by omega)]
      · rcases Nat.lt_or_ge i (a + e) with hi' | hi'
        · rw [copy_of_mem hi (by omega), copy_of_mem (by omega) (by omega)]
          congr 1
          omega
        · rw [copy_of_not_mem (by omega), copy_of_not_mem (by omega), copy_of_not_mem (by omega)]

/-- One piece that puts the right cells everywhere in its share is its share. -/
theorem Piece.exact_of_copy [Nontrivial α] {a b : ℕ} {p : Piece} (hw : p.Within a b)
    (h : ∀ (src dst : ℕ → α) (i : ℕ), p.off ≤ i → i < p.off + p.size →
      copy dst p.dst src p.src p.len (a + i) = src (b + i)) : p.Exact a b := by
  obtain ⟨x, y, hxy⟩ := exists_pair_ne α
  obtain ⟨hd, hs, hl, h0⟩ := hw
  -- the last cell of the share is reached only if nothing is short
  have hend : a + (p.off + p.size - 1) < p.dst + p.len := by
    by_contra hlt
    have := h (fun _ => x) (fun _ => y) (p.off + p.size - 1) (by omega) (by omega)
    rw [copy_of_not_mem (by omega)] at this
    exact hxy this.symm
  refine ⟨by omega, ?_, by omega⟩
  by_contra hne
  have := h (fun j => if j = b + p.off then x else y) (fun _ => y) p.off (Nat.le_refl _) (by omega)
  rw [copy_of_mem (by omega) (by omega), if_pos rfl, if_neg (by omega)] at this
  exact hxy this.symm

theorem exact_of_runPieces [Nontrivial α] :
    ∀ {ps : List Piece} {k : ℕ}, Tiles k e ps → (∀ p ∈ ps, p.Within a b) →
      (∀ (src dst : ℕ → α) (i : ℕ), k ≤ i → i < e → runPieces src dst ps (a + i) = src (b + i)) →
      ∀ p ∈ ps, p.Exact a b
  | [], _, _, _, _ => by simp
  | p :: ps, k, ⟨hoff, ht⟩, hw, h => by
      have hle := ht.le
      obtain ⟨hpd, hps, hpl, -⟩ := hw p List.mem_cons_self
      have hrest : ∀ q ∈ ps, q.Exact a b := by
        refine exact_of_runPieces ht (fun q hq => hw q (List.mem_cons_of_mem _ hq))
          fun (src dst : ℕ → α) i hi hie => ?_
        rw [← h src dst i (by omega) hie, runPieces_cons]
        exact runPieces_congr src ps (copy_of_not_mem (by omega)).symm
      have hp : p.Exact a b := by
        refine p.exact_of_copy (hw p List.mem_cons_self) fun (src dst : ℕ → α) i hi hie => ?_
        rw [← h src dst i (by omega) (by omega), runPieces_cons,
          runPieces_of_exact src _ ht hrest]
        exact (copy_of_not_mem (.inl (by omega))).symm
      simpa using ⟨hp, hrest⟩

/-- **Pieces that make their copy.** -/
theorem runPieces_eq_copy_iff [Nontrivial α] {ps : List Piece} (ht : Tiles 0 e ps)
    (hw : ∀ p ∈ ps, p.Within a b) :
    (∀ src dst : ℕ → α, runPieces src dst ps = copy dst a src b e) ↔ ∀ p ∈ ps, p.Exact a b := by
  constructor
  · intro h
    refine exact_of_runPieces ht hw fun (src dst : ℕ → α) i _ hi => ?_
    rw [h, copy_of_mem (by omega) (by omega), Nat.add_sub_cancel_left]
  · exact fun hex src dst => by simpa using runPieces_of_exact src dst ht hex

end Memory
