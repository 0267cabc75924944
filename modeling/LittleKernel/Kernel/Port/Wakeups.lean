/-
# No reader asleep beside a packet

Threads that read ports and groups with `port_read`, interleaved with
`port_write` and `port_group_add` at thread-lock granularity.

A write wakes one thread for each reader it reaches, of the group or of the port
itself, however many packets it brings, and `port_group_add` wakes one.  So where
two packets arrive beside two sleeping threads, one of them stays asleep with a
packet to read (`reader_left_asleep`).  A second way is a wake-up that goes to the
group while a thread sleeps on the port: the group's thread may take the packet
of another port.

`Covered` is the accounting that rules both out: beside a sleeper, the unread
packets of a port, or of all ports of a group together, are at most the woken
threads due to read them; a port read directly shares its group with no other.
Runs in which packets come one at a time where several threads sleep, and in
which ports that share a group are read through it, keep it (`readers_awake`).
-/

import LittleKernel.Kernel.Port.Fifo
import LittleKernel.Kernel.Port.Groups
import Mathlib.Algebra.Order.BigOperators.Group.List
import Mathlib.Algebra.Order.Group.Nat

namespace LittleKernel
namespace Port

open Machine Function

variable {α : Type}

/-! ### The accounting -/

theorem sum_map_update {l : List ℕ} {r : ℕ} (hnd : l.Nodup) (hr : r ∈ l) (f : ℕ → ℕ) (v : ℕ) :
    (l.map (update f r v)).sum + f r = (l.map f).sum + v := by
  induction l with
  | nil => simp at hr
  | cons a l ih =>
    obtain ⟨hal, hnd⟩ := List.nodup_cons.1 hnd
    rcases eq_or_ne a r with rfl | har
    · have hsame : l.map (update f a v) = l.map f := List.map_congr_left fun q hq => by
        rw [update_of_ne fun hqa : q = a => hal (hqa ▸ hq)]
      simp only [List.map_cons, List.sum_cons, update_self, hsame]
      omega
    · have := ih hnd (by simpa [har.symm] using hr)
      simp only [List.map_cons, List.sum_cons, update_of_ne har]
      omega

theorem map_update_of_not_mem {l : List ℕ} {r : ℕ} (hr : r ∉ l) (f : ℕ → ℕ) (v : ℕ) :
    l.map (update f r v) = l.map f :=
  List.map_congr_left fun q hq => by
    rw [update_of_ne fun hqr : q = r => hr (hqr ▸ hq)]

theorem le_sum_map {l : List ℕ} {r : ℕ} (hr : r ∈ l) (f : ℕ → ℕ) : f r ≤ (l.map f).sum :=
  List.single_le_sum (fun _ _ => Nat.zero_le _) _ (List.mem_map_of_mem hr)

/-- `N` counts the unread packets of a port, `B` the threads blocked on a port or a
group, `W` the threads woken there that have not run. -/
structure Covered (G : ℕ → Option (Option ℕ)) (M : ℕ → Option (List ℕ)) (N B W : ℕ → ℕ) :
    Prop where
  kinds : ∀ g l, M g = some l → G g = none
  alone : ∀ r, G r = some none → 0 < B r → N r ≤ W r
  grouped : ∀ g l, M g = some l → (0 < B g ∨ ∃ r ∈ l, 0 < B r) →
    (l.map N).sum ≤ W g + (l.map W).sum
  apart : ∀ g l, M g = some l → 2 ≤ l.length → ∀ r ∈ l, B r = 0 ∧ W r = 0

namespace Covered

variable {G : ℕ → Option (Option ℕ)} {M : ℕ → Option (List ℕ)} {N N' B B' W W' : ℕ → ℕ}
  {r g q : ℕ} {l : List ℕ}

variable (h : Covered G M N B W) (hl : Linked G M)
include h hl

/-- Beside a sleeper no more packets are unread than threads are due. -/
theorem unread_le {o : Option ℕ} (hr : G r = some o)
    (hb : 0 < B r ∨ ∃ g, o = some g ∧ 0 < B g) : N r ≤ W r + o.elim 0 W := by
  cases o with
  | none =>
    rcases hb with hb | ⟨g, hg, -⟩
    · simpa using h.alone r hr hb
    · exact absurd hg (by simp)
  | some g =>
    obtain ⟨l, hg, hmem⟩ := hl.member r g hr
    have hsum := h.grouped g l hg <| hb.elim (fun hb => .inr ⟨r, hmem, hb⟩) fun ⟨g', hg', hb⟩ =>
      .inl (Option.some.inj hg' ▸ hb)
    have hle := le_sum_map hmem N
    simp only [Option.elim_some]
    rcases Nat.lt_or_ge l.length 2 with hlen | hlen
    · obtain rfl : l = [r] := by
        match l, hmem, hlen with
        | [a], hmem, _ => rw [List.mem_singleton.1 hmem]
      simp only [List.map_cons, List.map_nil, List.sum_cons, List.sum_nil] at hsum
      omega
    · have hzero : (l.map W).sum = 0 := by
        refine List.sum_eq_zero fun x hx => ?_
        obtain ⟨q, hq, rfl⟩ := List.mem_map.1 hx
        exact (h.apart g l hg hlen q hq).2
      omega

omit hl in
/-- Fewer packets or fewer sleepers. -/
theorem mono (hN : ∀ r, N' r ≤ N r) (hB : ∀ q, 0 < B' q → 0 < B q) :
    Covered G M N' B' W where
  kinds := h.kinds
  alone r hr hb := (hN r).trans (h.alone r hr (hB r hb))
  grouped g l hg hb := by
    have hsum : (l.map N').sum ≤ (l.map N).sum := List.sum_le_sum fun r _ => hN r
    refine hsum.trans (h.grouped g l hg ?_)
    exact hb.imp (hB g) fun ⟨r, hr, hb⟩ => ⟨r, hr, hB r hb⟩
  apart g l hg hlen r hr := by
    obtain ⟨hb, hw⟩ := h.apart g l hg hlen r hr
    refine ⟨?_, hw⟩
    by_contra hne
    have := hB r (by omega)
    omega

/-- A list of one or a list whose ports nobody reads directly. -/
theorem eq_singleton (hr : G r = some (some g)) (hb : 0 < B r ∨ 0 < W r) : M g = some [r] := by
  obtain ⟨l, hg, hmem⟩ := hl.member r g hr
  rcases Nat.lt_or_ge l.length 2 with hlen | hlen
  · match l, hmem, hlen with
    | [a], hmem, _ => rw [hg, List.mem_singleton.1 hmem]
  · have := h.apart g l hg hlen r hmem
    omega

/-- **A change at a port in no group** concerns nothing else. -/
theorem frame_alone (hr : G r = some none)
    (hsame : ∀ q, q ≠ r → N' q = N q ∧ B' q = B q ∧ W' q = W q) (hr' : 0 < B' r → N' r ≤ W' r) :
    Covered G M N' B' W' := by
  have hout : ∀ q l, M q = some l → q ≠ r ∧ ∀ p ∈ l, p ≠ r := fun q l hq =>
    ⟨fun hqr => by simpa [hqr, hr] using h.kinds q l hq, fun p hp hpr => by
      simpa [hpr, hr] using hl.back q l hq p hp⟩
  refine ⟨h.kinds, fun q hq hbq => ?_, fun q l hq hbq => ?_, fun q l hq hlen p hp => ?_⟩
  · rcases eq_or_ne q r with rfl | hqr
    · exact hr' hbq
    · obtain ⟨hN, hB, hW⟩ := hsame q hqr
      rw [hN, hW]
      exact h.alone q hq (hB ▸ hbq)
  · obtain ⟨hqr, hlr⟩ := hout q l hq
    rw [List.map_congr_left fun p hp => (hsame p (hlr p hp)).1,
      List.map_congr_left fun p hp => (hsame p (hlr p hp)).2.2, (hsame q hqr).2.2]
    refine h.grouped q l hq (hbq.imp (fun hb => (hsame q hqr).2.1 ▸ hb) ?_)
    rintro ⟨p, hp, hb⟩
    exact ⟨p, hp, (hsame p (hlr p hp)).2.1 ▸ hb⟩
  · obtain ⟨-, hlr⟩ := hout q l hq
    obtain ⟨-, hB, hW⟩ := hsame p (hlr p hp)
    rw [hB, hW]
    exact h.apart q l hq hlen p hp

/-- **A change at a group and its ports** concerns nothing else. -/
theorem frame_group (hg : M g = some l)
    (hsame : ∀ q, q ≠ g → q ∉ l → N' q = N q ∧ B' q = B q ∧ W' q = W q)
    (hsum : (0 < B' g ∨ ∃ r ∈ l, 0 < B' r) → (l.map N').sum ≤ W' g + (l.map W').sum)
    (hlen : 2 ≤ l.length → ∀ r ∈ l, B' r = 0 ∧ W' r = 0) : Covered G M N' B' W' := by
  have hgG := h.kinds g l hg
  have hout : ∀ q l', M q = some l' → q ≠ g → (q ∉ l) ∧ ∀ p ∈ l', p ≠ g ∧ p ∉ l :=
    fun q l' hq hqg => ⟨fun hmem => by simpa [h.kinds q l' hq] using hl.back g l hg q hmem,
      fun p hp => ⟨fun hpg => by simpa [hpg, hgG] using hl.back q l' hq p hp, fun hmem =>
        hqg (by simpa using (hl.back q l' hq p hp).symm.trans (hl.back g l hg p hmem))⟩⟩
  refine ⟨h.kinds, fun q hq hbq => ?_, fun q l' hq hbq => ?_, fun q l' hq hl' p hp => ?_⟩
  · have hqg : q ≠ g := fun hqg => by simp [hqg, hgG] at hq
    have hql : q ∉ l := fun hmem => by simpa [hq] using hl.back g l hg q hmem
    obtain ⟨hN, hB, hW⟩ := hsame q hqg hql
    rw [hN, hW]
    exact h.alone q hq (hB ▸ hbq)
  · rcases eq_or_ne q g with rfl | hqg
    · obtain rfl := Option.some.inj (hg.symm.trans hq)
      exact hsum hbq
    · obtain ⟨hql, hp⟩ := hout q l' hq hqg
      have hsame' := fun p hp' => hsame p (hp p hp').1 (hp p hp').2
      rw [List.map_congr_left fun p hp' => (hsame' p hp').1,
        List.map_congr_left fun p hp' => (hsame' p hp').2.2, (hsame q hqg hql).2.2]
      refine h.grouped q l' hq (hbq.imp (fun hb => (hsame q hqg hql).2.1 ▸ hb) ?_)
      rintro ⟨p, hp', hb⟩
      exact ⟨p, hp', (hsame' p hp').2.1 ▸ hb⟩
  · rcases eq_or_ne q g with rfl | hqg
    · obtain rfl := Option.some.inj (hg.symm.trans hq)
      exact hlen hl' p hp
    · obtain ⟨-, hout⟩ := hout q l' hq hqg
      obtain ⟨-, hB, hW⟩ := hsame p (hout p hp).1 (hout p hp).2
      rw [hB, hW]
      exact h.apart q l' hq hl' p hp

/-- `c` packets come to a port that is in no group. -/
theorem write_alone (hr : G r = some none) {c : ℕ}
    (hc : c ≤ 1 ∨ B r ≤ 1) (hN : N' = update N r (N r + c))
    (hwake : (0 < B r ∧ B' = update B r (B r - 1) ∧ W' = update W r (W r + 1)) ∨
      (B r = 0 ∧ B' = B ∧ W' = W)) : Covered G M N' B' W' := by
  subst hN
  rcases hwake with ⟨hb, rfl, rfl⟩ | ⟨hb, rfl, rfl⟩
  · refine h.frame_alone hl hr (fun q hqr => by simp [hqr]) fun hb' => ?_
    have := h.alone r hr hb
    simp only [update_self] at hb' ⊢
    omega
  · exact h.frame_alone hl hr (fun q hqr => by simp [hqr]) fun hb' => by omega

/-- `c` packets come to a port of the group `g`. -/
theorem write_grouped (hr : G r = some (some g)) {c : ℕ}
    (hc : c ≤ 1 ∨ B r + B g ≤ 1) (hN : N' = update N r (N r + c))
    (hwake : (0 < B g ∧ B' = update B g (B g - 1) ∧ W' = update W g (W g + 1)) ∨
      (B g = 0 ∧ 0 < B r ∧ B' = update B r (B r - 1) ∧ W' = update W r (W r + 1)) ∨
      (B g = 0 ∧ B r = 0 ∧ B' = B ∧ W' = W)) : Covered G M N' B' W' := by
  obtain ⟨l, hg, hmem⟩ := hl.member r g hr
  have hgl : g ∉ l := fun hm => by simpa [h.kinds g l hg] using hl.back g l hg g hm
  have hgr : g ≠ r := fun hgr => hgl (hgr ▸ hmem)
  have hsum := sum_map_update (hl.nodup g l hg) hmem N (N r + c)
  -- where nobody sleeps on the port itself, nobody sleeps on another of the group
  have hquiet : B r = 0 → ∀ q ∈ l, B q = 0 := fun hb q hq => by
    rcases Nat.lt_or_ge l.length 2 with hlen | hlen
    · obtain rfl : l = [r] := by
        match l, hmem, hlen with
        | [a], hmem, _ => rw [List.mem_singleton.1 hmem]
      rwa [List.mem_singleton.1 hq]
    · exact (h.apart g l hg hlen q hq).1
  subst hN
  rcases hwake with ⟨hb, rfl, rfl⟩ | ⟨hbg, hb, rfl, rfl⟩ | ⟨hbg, hb, rfl, rfl⟩
  · refine h.frame_group hl hg (fun q hqg hql => ?_) (fun hb' => ?_) fun hlen p hp => ?_
    · have hqr : q ≠ r := fun hqr => hql (hqr ▸ hmem)
      simp [hqg, hqr]
    · have hcov := h.grouped g l hg (.inl hb)
      rw [map_update_of_not_mem hgl, update_self]
      rcases hc with hc | hc
      · omega
      · rcases hb' with hb' | ⟨p, hp, hb'⟩
        · rw [update_self] at hb'
          omega
        · have hpg : p ≠ g := fun hpg => hgl (hpg ▸ hp)
          rw [update_of_ne hpg, hquiet (by omega) p hp] at hb'
          omega
    · have hpg : p ≠ g := fun hpg => hgl (hpg ▸ hp)
      rw [update_of_ne hpg, update_of_ne hpg]
      exact h.apart g l hg hlen p hp
  · -- a thread sleeps on the port itself, which is then alone in its group
    obtain rfl := Option.some.inj (hg.symm.trans (h.eq_singleton hl hr (.inl hb)))
    have hcov := h.grouped g [r] hg (.inr ⟨r, by simp, hb⟩)
    refine h.frame_group hl hg (fun q _ hql => ?_) (fun hb' => ?_) fun hlen => by simp at hlen
    · have hqr : q ≠ r := fun hqr => hql (by simp [hqr])
      simp [hqr]
    · simp only [List.map_cons, List.map_nil, List.sum_cons, List.sum_nil, update_self,
        update_of_ne hgr, List.mem_singleton, exists_eq_left] at hcov hb' ⊢
      omega
  · refine h.frame_group hl hg (fun q _ hql => ?_) (fun hb' => ?_) (h.apart g l hg)
    · have hqr : q ≠ r := fun hqr => hql (hqr ▸ hmem)
      simp [hqr]
    · rcases hb' with hb' | ⟨p, hp, hb'⟩
      · omega
      · rw [hquiet hb p hp] at hb'
        omega

/-- A thread goes to sleep on a port without packets that shares its group with no
other. -/
theorem block_port (hN : N r = 0) (hr : G r = some none ∨ ∃ g, G r = some (some g) ∧ M g = some [r])
    (hB : ∀ q, q ≠ r → B' q = B q) (hW : ∀ q, q ≠ r → W' q = W q) : Covered G M N B' W' := by
  rcases hr with hr | ⟨g, -, hg⟩
  · exact h.frame_alone hl hr (fun q hq => ⟨rfl, hB q hq, hW q hq⟩) fun _ => by omega
  · refine h.frame_group hl hg (fun q _ hq => ?_) (fun _ => ?_) fun hlen => by simp at hlen
    · have hqr : q ≠ r := fun hqr => hq (by simp [hqr])
      exact ⟨rfl, hB q hqr, hW q hqr⟩
    · simp [hN]

/-- A thread goes to sleep on a group without packets. -/
theorem block_group (hg : M g = some l)
    (hN : ∀ r ∈ l, N r = 0) (hB : ∀ q, q ≠ g → B' q = B q) (hW : ∀ q, q ≠ g → W' q = W q) :
    Covered G M N B' W' := by
  have hgl : g ∉ l := fun hm => by simpa [h.kinds g l hg] using hl.back g l hg g hm
  refine h.frame_group hl hg (fun q hqg _ => ⟨rfl, hB q hqg, hW q hqg⟩) (fun _ => ?_)
    fun hlen p hp => ?_
  · have hzero : (l.map N).sum = 0 := by
      refine List.sum_eq_zero fun x hx => ?_
      obtain ⟨q, hq, rfl⟩ := List.mem_map.1 hx
      exact hN q hq
    omega
  · have hpg : p ≠ g := fun hpg => hgl (hpg ▸ hp)
    rw [hB p hpg, hW p hpg]
    exact h.apart g l hg hlen p hp

/-- A woken reader of the port takes a packet. -/
theorem take_port {o : Option ℕ} (hr : G r = some o) (hN : 0 < N r) (hW : 0 < W r) :
    Covered G M (update N r (N r - 1)) B (update W r (W r - 1)) := by
  cases o with
  | none =>
    refine h.frame_alone hl hr (fun q hq => by simp [hq]) fun hb => ?_
    have := h.alone r hr hb
    simp only [update_self]
    omega
  | some g =>
    have hg := h.eq_singleton hl hr (.inr hW)
    have hgr : g ≠ r := fun hgr => by simpa [hgr, hr] using h.kinds g [r] hg
    refine h.frame_group hl hg (fun q _ hq => ?_) (fun hb => ?_) fun hlen => by simp at hlen
    · have hqr : q ≠ r := fun hqr => hq (by simp [hqr])
      simp [hqr]
    · have := h.grouped g [r] hg hb
      simp only [List.map_cons, List.map_nil, List.sum_cons, List.sum_nil, update_self,
        update_of_ne hgr] at this ⊢
      omega

/-- A woken reader of the group takes a packet. -/
theorem take_group (hg : M g = some l) (hr : r ∈ l) (hN : 0 < N r) (hW : 0 < W g) :
    Covered G M (update N r (N r - 1)) B (update W g (W g - 1)) := by
  have hgl : g ∉ l := fun hm => by simpa [h.kinds g l hg] using hl.back g l hg g hm
  refine h.frame_group hl hg (fun q hqg hql => ?_) (fun hb => ?_) fun hlen p hp => ?_
  · have hqr : q ≠ r := fun hqr => hql (hqr ▸ hr)
    simp [hqg, hqr]
  · have hcov := h.grouped g l hg hb
    have hsum := sum_map_update (hl.nodup g l hg) hr N (N r - 1)
    rw [map_update_of_not_mem hgl, update_self]
    omega
  · have hpg : p ≠ g := fun hpg => hgl (hpg ▸ hp)
    rw [update_of_ne hpg]
    exact h.apart g l hg hlen p hp

/-- A thread that was woken elsewhere. -/
theorem forget (hG : G q = none) (hM : M q = none)
    (hW : ∀ p, p ≠ q → W' p = W p) : Covered G M N B W' := by
  have hne : ∀ p, G p ≠ none ∨ M p ≠ none → p ≠ q := by
    rintro p hp rfl
    exact hp.elim (fun hp => hp hG) fun hp => hp hM
  have hmem : ∀ g l, M g = some l → ∀ p ∈ l, W' p = W p := fun g l hg p hp =>
    hW p (hne p (.inl (by simp [hl.back g l hg p hp])))
  refine ⟨h.kinds, fun p hp hb => ?_, fun g l hg hb => ?_, fun g l hg hlen p hp => ?_⟩
  · rw [hW p (hne p (.inl (by simp [hp])))]
    exact h.alone p hp hb
  · rw [hW g (hne g (.inr (by simp [hg]))), List.map_congr_left (hmem g l hg)]
    exact h.grouped g l hg hb
  · rw [hmem g l hg p hp]
    exact h.apart g l hg hlen p hp

/-- A port joins the group `g`, beside which at most a wake-up of the group takes
place. -/
theorem join (hr : G r = some none) (hg : M g = some l)
    (hB : ∀ q, q ≠ g → B' q = B q) (hW : ∀ q, q ≠ g → W' q = W q)
    (hsum : (0 < B' g ∨ ∃ p ∈ l ++ [r], 0 < B p) →
      ((l ++ [r]).map N).sum ≤ W' g + ((l ++ [r]).map W).sum)
    (hlen : 2 ≤ (l ++ [r]).length → ∀ p ∈ l ++ [r], B p = 0 ∧ W p = 0) :
    Covered (update G r (some (some g))) (update M g (some (l ++ [r]))) N B' W' := by
  have hgG := h.kinds g l hg
  have hgr : g ≠ r := fun hgr => by simp [hgr, hr] at hgG
  have hgl : g ∉ l ++ [r] := by
    simp only [List.mem_append, List.mem_singleton, hgr, or_false]
    exact fun hm => by simpa [hgG] using hl.back g l hg g hm
  have hB' : ∀ p ∈ l ++ [r], B' p = B p := fun p hp => hB p fun hpg => hgl (hpg ▸ hp)
  have hW' : ∀ p ∈ l ++ [r], W' p = W p := fun p hp => hW p fun hpg => hgl (hpg ▸ hp)
  have hrM : ∀ q l', M q = some l' → q ≠ r := fun q l' hq hqr => by
    simpa [hqr, hr] using h.kinds q l' hq
  have hout : ∀ q l', M q = some l' → ∀ p ∈ l', p ≠ g := fun q l' hq p hp hpg => by
    simpa [hpg, hgG] using hl.back q l' hq p hp
  refine ⟨fun q l' hq => ?_, fun q hq hb => ?_, fun q l' hq hb => ?_, fun q l' hq hl' p hp => ?_⟩
  · rcases eq_or_ne q g with rfl | hqg
    · rwa [update_of_ne hgr]
    · rw [update_of_ne hqg] at hq
      rw [update_of_ne (hrM q l' hq)]
      exact h.kinds q l' hq
  · have hqr : q ≠ r := fun hqr => by simp [hqr] at hq
    rw [update_of_ne hqr] at hq
    have hqg : q ≠ g := fun hqg => by simp [hqg, hgG] at hq
    rw [hW q hqg]
    exact h.alone q hq (hB q hqg ▸ hb)
  · rcases eq_or_ne q g with rfl | hqg
    · obtain rfl : l ++ [r] = l' := by simpa using hq
      rw [List.map_congr_left hW']
      refine hsum (hb.imp_right ?_)
      rintro ⟨p, hp, hbp⟩
      exact ⟨p, hp, hB' p hp ▸ hbp⟩
    · rw [update_of_ne hqg] at hq
      rw [List.map_congr_left fun p hp => hW p (hout q l' hq p hp), hW q hqg]
      refine h.grouped q l' hq (hb.imp (fun hb => hB q hqg ▸ hb) ?_)
      rintro ⟨p, hp, hbp⟩
      exact ⟨p, hp, hB p (hout q l' hq p hp) ▸ hbp⟩
  · rcases eq_or_ne q g with rfl | hqg
    · obtain rfl : l ++ [r] = l' := by simpa using hq
      rw [hB' p hp, hW' p hp]
      exact hlen hl' p hp
    · rw [update_of_ne hqg] at hq
      rw [hB p (hout q l' hq p hp), hW p (hout q l' hq p hp)]
      exact h.apart q l' hq hl' p hp

/-- A port joins a group, and its packets wake one thread of the group. -/
theorem join_wake (hr : G r = some none) (hg : M g = some l) (hfew : N r ≤ 1 ∨ B g ≤ 1)
    (hclean : l ≠ [] → ∀ q ∈ l ++ [r], B q = 0 ∧ W q = 0)
    (hwake : (0 < B g ∧ B' = update B g (B g - 1) ∧ W' = update W g (W g + 1)) ∨
      ((N r = 0 ∨ B g = 0) ∧ B' = B ∧ W' = W)) :
    Covered (update G r (some (some g))) (update M g (some (l ++ [r]))) N B' W' := by
  have hcount : (∀ q, q ≠ g → B' q = B q ∧ W' q = W q) ∧
      (0 < B' g → 0 < B g ∧ N r + W g ≤ W' g) := by
    rcases hwake with ⟨hb, rfl, rfl⟩ | ⟨hn, rfl, rfl⟩
    · refine ⟨fun q hq => by simp [hq], fun hb' => ⟨hb, ?_⟩⟩
      simp only [update_self] at hb' ⊢
      omega
    · exact ⟨fun q _ => ⟨rfl, rfl⟩, fun hb' => ⟨hb', by omega⟩⟩
  obtain ⟨hsame, hpos⟩ := hcount
  refine h.join hl hr hg (fun q hq => (hsame q hq).1) (fun q hq => (hsame q hq).2) (fun hb => ?_)
    fun hlen => hclean fun hnil => by simp [hnil] at hlen
  rcases eq_or_ne l [] with rfl | hne
  · simp only [List.nil_append, List.mem_singleton, exists_eq_left, List.map_cons, List.map_nil,
      List.sum_cons, List.sum_nil] at hb ⊢
    rcases hb with hb | hb
    · have := hpos hb
      omega
    · have := h.alone r hr hb
      omega
  · have hbg : 0 < B' g := hb.elim id fun ⟨p, hp, hbp⟩ => by
      have := hclean hne p hp
      omega
    obtain ⟨hb₀, hN⟩ := hpos hbg
    have hcov := h.grouped g l hg (.inl hb₀)
    rw [List.map_append, List.map_append, List.sum_append, List.sum_append]
    simp only [List.map_cons, List.map_nil, List.sum_cons, List.sum_nil]
    omega

end Covered

/-! ### The counts of a state -/

namespace Ports

/-- The unread packets of a read port. -/
def packets (s : Ports α) (r : ℕ) : ℕ := (s.unread r).length

/-- The threads blocked on a port or a group. -/
def sleepers (s : Ports α) (h : ℕ) : ℕ := (s.wait h).length

/-- The threads woken there with `NO_ERROR` that have not run since. -/
def due (s : Ports α) (h : ℕ) : ℕ := s.woken.countP fun w => w.port = h ∧ w.ret = .noError

theorem kinds (s : Ports α) : ∀ g l, s.members? g = some l → s.gport? g = none :=
  fun _ _ => gport?_of_members?

theorem packets_congr {s s' : Ports α} (h : s'.heap = s.heap) : s'.packets = s.packets := by
  funext r
  simp [packets, unread, h]

theorem packets_set {s : Ports α} {r : ℕ} (rp : ReadPort α) :
    (s.set r (.readPort rp)).packets = update s.packets r rp.buf.content.length := by
  funext q
  rcases eq_or_ne q r with rfl | hqr
  · simp [packets, unread, set]
  · simp [packets, unread, set, hqr]

/-- `wait_queue_wake_one` moves one thread from the sleepers to the due. -/
theorem wakeOne_cases (s : Ports α) (h : ℕ) :
    (0 < s.sleepers h ∧ (waitQueueWakeOne s h .noError).2 = 1 ∧
      (waitQueueWakeOne s h .noError).1.sleepers = update s.sleepers h (s.sleepers h - 1) ∧
      (waitQueueWakeOne s h .noError).1.due = update s.due h (s.due h + 1)) ∨
      (s.sleepers h = 0 ∧ waitQueueWakeOne s h .noError = (s, 0)) := by
  unfold waitQueueWakeOne
  split
  · rename_i hnil
    exact .inr ⟨by simp [sleepers, hnil], rfl⟩
  · rename_i r l hcons
    refine .inl ⟨by simp [sleepers, hcons], rfl, ?_, ?_⟩
    · funext q
      rcases eq_or_ne q h with rfl | hqh
      · simp [sleepers, hcons]
      · simp [sleepers, hqh]
    · funext q
      rcases eq_or_ne q h with rfl | hqh
      · simp [due]
      · simp [due, hqh, hqh.symm]

end Ports

/-! ### The steps -/

/-- What holds between any two steps. -/
structure WakeOk (s : Ports α) : Prop where
  groups : GroupsOk s
  covered : Covered s.gport? s.members? s.packets s.sleepers s.due

namespace WakeOk

open Ports

variable {s s' : Ports α} {res : Result α}

theorem linked (h : WakeOk s) : Linked s.gport? s.members? := h.groups.linked

/-- The links are as before and the counts are covered. -/
theorem of_same (h : WakeOk s) (hs : SameLinks s s')
    (hc : Covered s.gport? s.members? s'.packets s'.sleepers s'.due) : WakeOk s' :=
  ⟨h.groups.same hs, by rw [hs.gport, hs.members]; exact hc⟩

/-- What the turns of `port_write` leave for those after them. -/
structure Later (s s' : Ports α) : Prop where
  sleepers : ∀ q, s'.sleepers q ≤ s.sleepers q
  room : ∀ q rq', s'.heap q = some (.readPort rq') →
    ∃ rq, s.heap q = some (.readPort rq) ∧ rq'.gport = rq.gport ∧ rq'.buf.avail ≤ rq.buf.avail

/-- At most one packet comes, or there is at most one thread to wake. -/
def Light (s : Ports α) (r n : ℕ) : Prop :=
  n ≤ 1 ∨ ∀ rp, s.heap r = some (.readPort rp) → n ≤ rp.buf.avail →
    s.sleepers r + rp.gport.elim 0 s.sleepers ≤ 1

theorem Light.later {r n : ℕ} (h : Light s r n) (hl : Later s s') : Light s' r n := by
  refine h.imp_right fun h rp' hr' hlen => ?_
  obtain ⟨rp, hr, hg, havail⟩ := hl.room r rp' hr'
  have hle := h rp hr (hlen.trans havail)
  rw [hg]
  cases hgp : rp.gport with
  | none =>
    have := hl.sleepers r
    simp only [hgp, Option.elim_none] at hle ⊢
    omega
  | some g =>
    have := hl.sleepers r
    have := hl.sleepers g
    simp only [hgp, Option.elim_some] at hle ⊢
    omega

theorem wakeOne_sleepers_le (s : Ports α) (h q : ℕ) :
    (waitQueueWakeOne s h .noError).1.sleepers q ≤ s.sleepers q := by
  rcases wakeOne_cases s h with ⟨hb, -, hB, -⟩ | ⟨-, he⟩
  · rw [hB]
    rcases eq_or_ne q h with rfl | hqh
    · simp
    · simp [hqh]
  · rw [he]

/-- The packets are in the buffer of `r`: the wake-up that follows covers them. -/
theorem wakeReader (h : WakeOk s) {s₁ : Ports α} {r c : ℕ} {o : Option ℕ}
    (hr : s.gport? r = some o) (hsame : SameLinks s s₁)
    (hN : s₁.packets = update s.packets r (s.packets r + c))
    (hB : s₁.sleepers = s.sleepers) (hW : s₁.due = s.due)
    (hc : c ≤ 1 ∨ s.sleepers r + o.elim 0 s.sleepers ≤ 1) (hs : Port.wakeReader s₁ r o = some s') :
    WakeOk s' ∧ (∀ q, s'.sleepers q ≤ s.sleepers q) ∧ s'.heap = s₁.heap := by
  have hlinks := hsame.trans (wakeReader_sameLinks hs)
  unfold Port.wakeReader at hs
  cases o with
  | none =>
    cases hs
    refine ⟨h.of_same hlinks ?_, fun q => hB ▸ wakeOne_sleepers_le s₁ r q, by simp⟩
    have hN' : (waitQueueWakeOne s₁ r .noError).1.packets
        = update s.packets r (s.packets r + c) := by
      rw [packets_congr (waitQueueWakeOne_heap ..), hN]
    refine h.covered.write_alone h.linked hr (hc.imp_right (by simp)) hN' ?_
    rcases wakeOne_cases s₁ r with ⟨hb, -, hB', hW'⟩ | ⟨hb, he⟩
    · exact .inl ⟨hB ▸ hb, by rw [hB', hB], by rw [hW', hW]⟩
    · exact .inr ⟨hB ▸ hb, by rw [he, hB], by rw [he, hW]⟩
  | some g =>
    dsimp only at hs
    split at hs
    · have hN' : ∀ q, (waitQueueWakeOne s₁ q .noError).1.packets
          = update s.packets r (s.packets r + c) := fun q => by
        rw [packets_congr (waitQueueWakeOne_heap ..), hN]
      split at hs
      · rename_i hnone
        cases hs
        refine ⟨h.of_same hlinks ?_, fun q => hB ▸ wakeOne_sleepers_le s₁ r q, by simp⟩
        refine h.covered.write_grouped h.linked hr hc (hN' r) (.inr ?_)
        have hbg : s.sleepers g = 0 := by
          rcases wakeOne_cases s₁ g with ⟨-, hone, -⟩ | ⟨hb, -⟩
          · rw [hone] at hnone
            exact absurd hnone (by decide)
          · rwa [hB] at hb
        rcases wakeOne_cases s₁ r with ⟨hb, -, hB', hW'⟩ | ⟨hb, he⟩
        · exact .inl ⟨hbg, hB ▸ hb, by rw [hB', hB], by rw [hW', hW]⟩
        · exact .inr ⟨hbg, hB ▸ hb, by rw [he, hB], by rw [he, hW]⟩
      · rename_i hsome
        cases hs
        refine ⟨h.of_same hlinks ?_, fun q => hB ▸ wakeOne_sleepers_le s₁ g q, by simp⟩
        refine h.covered.write_grouped h.linked hr hc (hN' g) (.inl ?_)
        rcases wakeOne_cases s₁ g with ⟨hb, -, hB', hW'⟩ | ⟨-, he⟩
        · exact ⟨hB ▸ hb, by rw [hB', hB], by rw [hW', hW]⟩
        · rw [he] at hsome
          exact absurd rfl hsome
    · exact absurd hs (by simp)

variable {pk : List α}

theorem writeReader (h : WakeOk s) {r : ℕ} {b : Bool}
    (hc : Light s r pk.length) (hs : Port.writeReader s r pk = some (s', b)) :
    WakeOk s' ∧ Later s s' := by
  unfold Port.writeReader at hs
  split at hs
  · rename_i rp hr
    split at hs
    · obtain ⟨rfl, -⟩ := Prod.mk.inj (Option.some.inj hs)
      exact ⟨h, fun q => le_rfl, fun q rq hq => ⟨rq, hq, rfl, le_rfl⟩⟩
    · rename_i b' hb
      obtain ⟨s₂, h₂, he⟩ := Option.map_eq_some_iff.1 hs
      obtain ⟨rfl, -⟩ := Prod.mk.inj he
      have hG : s.gport? r = some rp.gport := by simp [gport?, hr]
      have hlen : pk.length ≤ rp.buf.avail := by
        by_contra hlt
        simp [bufWrite_eq_none.2 (not_le.1 hlt)] at hb
      have hN : (s.set r (.readPort { rp with buf := b' })).packets
          = update s.packets r (s.packets r + pk.length) := by
        rw [packets_set, bufWrite_content hb, packets, unread_of_heap hr, List.length_append]
      obtain ⟨hok, hle, hheap⟩ := h.wakeReader hG
        (setRead_sameLinks hr { rp with buf := b' } rfl) hN rfl rfl
        (hc.imp_right fun hc => hc rp hr hlen) h₂
      refine ⟨hok, hle, fun q rq' hq => ?_⟩
      rw [hheap] at hq
      rcases eq_or_ne q r with rfl | hqr
      · obtain rfl : { rp with buf := b' } = rq' := by simpa [Ports.set] using hq
        refine ⟨rp, hr, rfl, ?_⟩
        unfold bufWrite at hb
        split at hb
        · exact absurd hb (by simp)
        · cases hb
          exact Nat.sub_le _ _
      · exact ⟨rq', by simpa [Ports.set, hqr] using hq, rfl, le_rfl⟩
  · exact absurd hs (by simp)

theorem writeLoop (h : WakeOk s) {rs : List ℕ} {st st' : PortStatus}
    (hc : ∀ r ∈ rs, Light s r pk.length) (hs : Port.writeLoop s pk st rs = some (s', st')) :
    WakeOk s' := by
  induction rs generalizing s st with
  | nil =>
    obtain ⟨rfl, -⟩ := Prod.mk.inj (Option.some.inj hs)
    exact h
  | cons r rs ih =>
    obtain ⟨⟨s₁, b⟩, h₁, h₂⟩ := Option.bind_eq_some_iff.1 hs
    obtain ⟨hok, hlater⟩ := h.writeReader (hc r List.mem_cons_self) h₁
    exact ih hok (fun q hq => (hc q (List.mem_cons_of_mem _ hq)).later hlater) h₂

theorem write (h : WakeOk s) {w : ℕ}
    (hc : ∀ wp, s.heap w = some (.writePort wp) → ∀ r ∈ wp.rpList, Light s r pk.length)
    (hs : portWrite s w pk = some (s', res)) : WakeOk s' := by
  unfold portWrite at hs
  split at hs
  · obtain ⟨rfl, -⟩ := Prod.mk.inj (Option.some.inj hs)
    exact h
  · split at hs
    · exact absurd hs (by simp)
    · rename_i wp hw
      split at hs
      · obtain ⟨rfl, -⟩ := Prod.mk.inj (Option.some.inj hs)
        exact h
      · split at hs
        · split at hs
          · obtain ⟨rfl, -⟩ := Prod.mk.inj (Option.some.inj hs)
            exact h
          · obtain ⟨rfl, -⟩ := Prod.mk.inj (Option.some.inj hs)
            refine h.of_same (setWrite_sameLinks (.inr ⟨wp, hw⟩))
              (h.covered.mono (fun q => ?_) fun _ hb => hb)
            rcases eq_or_ne q w with rfl | hqw
            · simp [packets, unread, Ports.set]
            · simp [packets, unread, Ports.set, hqw]
        · obtain ⟨⟨s₁, st⟩, h₁, he⟩ := Option.map_eq_some_iff.1 hs
          obtain ⟨rfl, -⟩ := Prod.mk.inj he
          exact h.writeLoop (hc wp hw) h₁
    · obtain ⟨rfl, -⟩ := Prod.mk.inj (Option.some.inj hs)
      exact h

/-- `wait_queue_block` of a read, or its immediate timeout. -/
theorem blockReader_counts (s : Ports α) (q : ℕ) (t : Reader) :
    (blockReader s q t).1.heap = s.heap ∧ (blockReader s q t).1.due = s.due ∧
      (∀ p, p ≠ q → (blockReader s q t).1.sleepers p = s.sleepers p) ∧
      (t.timeout = 0 → (blockReader s q t).1 = s) := by
  unfold blockReader
  split
  · exact ⟨rfl, rfl, fun _ _ => rfl, fun _ => rfl⟩
  · rename_i ht
    exact ⟨rfl, rfl, fun p hp => by simp [sleepers, waitQueueBlock, hp], fun h0 => absurd h0 ht⟩

/-- What a read finds on a group: the packet of one of its ports, or no packet. -/
theorem readGroup_cases {g : ℕ} {t : Reader} {l : List ℕ}
    (hs : readGroup s g t l = some (s', res)) :
    (∃ r ∈ l, ∃ rp p b, s.heap r = some (.readPort rp) ∧ bufRead rp.buf = some (p, b) ∧
        s' = s.set r (.readPort { rp with buf := b })) ∨
      ((∀ r ∈ l, s.packets r = 0) ∧ s' = (blockReader s g t).1) := by
  induction l with
  | nil => exact .inr ⟨by simp, (congrArg Prod.fst (Option.some.inj hs)).symm⟩
  | cons r l ih =>
    unfold readGroup at hs
    split at hs
    · rename_i rp hr
      split at hs
      · rename_i p b hread
        obtain ⟨rfl, -⟩ := Prod.mk.inj (Option.some.inj hs)
        exact .inl ⟨r, List.mem_cons_self, rp, p, b, hr, hread, rfl⟩
      · rename_i hread
        have hzero : s.packets r = 0 := by
          rw [packets, unread_of_heap hr, bufRead_eq_none.1 hread, List.length_nil]
        rcases ih hs with ⟨q, hq, hfound⟩ | ⟨hall, he⟩
        · exact .inl ⟨q, List.mem_cons_of_mem _ hq, hfound⟩
        · refine .inr ⟨fun q hq => ?_, he⟩
          rcases List.mem_cons.1 hq with rfl | hq
          · exact hzero
          · exact hall q hq
    · exact absurd hs (by simp)

/-- `buf_read` takes one packet. -/
theorem packets_bufRead {r : ℕ} {rp : ReadPort α} {p : α} {b : PortBuf α}
    (hr : s.heap r = some (.readPort rp)) (hread : bufRead rp.buf = some (p, b)) :
    0 < s.packets r ∧ (s.set r (.readPort { rp with buf := b })).packets
      = update s.packets r (s.packets r - 1) := by
  have hcons := bufRead_content hread
  have hlen : s.packets r = b.content.length + 1 := by
    rw [packets, unread_of_heap hr, hcons, List.length_cons]
  refine ⟨by omega, ?_⟩
  rw [packets_set, hlen, Nat.add_sub_cancel]

/-- **A read**, by a thread that calls `port_read` (`W' = due`) or that was woken on
`q` and has not run since (`W'` one less there). -/
theorem read (h : WakeOk s) {s₁ : Ports α} {q : ℕ} {t : Reader} (hsame : SameLinks s s₁)
    (hheap : s₁.heap = s.heap) (hB : s₁.sleepers = s.sleepers)
    (hW : s₁.due = s.due ∨ 0 < s.due q ∧ s₁.due = update s.due q (s.due q - 1))
    (hone : s₁.due = s.due → t.timeout = 0 ∨ s.packets q ≠ 0 ∨
      ∀ g, s.gport? q = some (some g) → s.members? g = some [q])
    (hs : readLocked s₁ q t = some (s', res)) : WakeOk s' := by
  have hlinks := hsame.trans (readLocked_sameLinks hs)
  have hN := packets_congr hheap
  have hWq : ∀ p, p ≠ q → s₁.due p = s.due p := fun p hp => by
    rcases hW with hW | ⟨-, hW⟩
    · rw [hW]
    · rw [hW, update_of_ne hp]
  unfold readLocked at hs
  split at hs
  · exact absurd hs (by simp)
  · rename_i rp hr
    have hr₀ : s.heap q = some (.readPort rp) := hheap ▸ hr
    have hG : s.gport? q = some rp.gport := by simp [gport?, hr₀]
    obtain rfl : (readNoLock s₁ q rp t).1 = s' := congrArg Prod.fst (Option.some.inj hs)
    refine h.of_same hlinks ?_
    unfold readNoLock
    split
    · rename_i p b hread
      obtain ⟨hpos, hdec⟩ := packets_bufRead hr hread
      rw [hN] at hpos hdec
      rw [hdec]
      rcases hW with hW | ⟨hpW, hW⟩
      · have hc : Covered s.gport? s.members? s.packets s.sleepers s.due := h.covered
        rw [← hB, ← hW] at hc
        refine hc.mono (fun p => ?_) fun _ hb => hb
        rcases eq_or_ne p q with rfl | hpq
        · simp
        · simp [hpq]
      · have hc := h.covered.take_port h.linked hG hpos hpW
        rw [← hB, ← hW] at hc
        exact hc
    · rename_i hread
      have hzero : s.packets q = 0 := by
        rw [packets, unread_of_heap hr₀, bufRead_eq_none.1 hread, List.length_nil]
      obtain ⟨hheap', hdue', hsleep', hnow⟩ := blockReader_counts s₁ q t
      rw [packets_congr hheap', hN, hdue']
      by_cases ht : t.timeout = 0 ∧ s₁.due = s.due
      · rw [hnow ht.1, hB, ht.2]
        exact h.covered
      · refine h.covered.block_port h.linked hzero ?_ (fun p hp => (hsleep' p hp).trans
          (congrFun hB p)) hWq
        cases hgp : rp.gport with
        | none => exact .inl (by rw [hG, hgp])
        | some g =>
          rw [hgp] at hG
          refine .inr ⟨g, hG, ?_⟩
          rcases hW with hW | ⟨hpW, -⟩
          · rcases hone hW with ht' | hne | hone
            · exact absurd ⟨ht', hW⟩ ht
            · exact absurd hzero hne
            · exact hone g hG
          · exact h.covered.eq_singleton h.linked hG (.inr hpW)
  · rename_i pg hg
    have hM : s.members? q = some pg.rpList := by simp [members?, ← hheap, hg]
    refine h.of_same hlinks ?_
    rcases readGroup_cases hs with ⟨r, hr, rp, p, b, hrp, hread, rfl⟩ | ⟨hall, rfl⟩
    · obtain ⟨hpos, hdec⟩ := packets_bufRead hrp hread
      rw [hN] at hpos hdec
      rw [hdec]
      rcases hW with hW | ⟨hpW, hW⟩
      · have hc : Covered s.gport? s.members? s.packets s.sleepers s.due := h.covered
        rw [← hB, ← hW] at hc
        refine hc.mono (fun p => ?_) fun _ hb => hb
        rcases eq_or_ne p r with rfl | hpr
        · simp
        · simp [hpr]
      · have hc := h.covered.take_group h.linked hM hr hpos hpW
        rw [← hB, ← hW] at hc
        exact hc
    · obtain ⟨hheap', hdue', hsleep', -⟩ := blockReader_counts s₁ q t
      rw [packets_congr hheap', hN, hdue']
      rw [hN] at hall
      exact h.covered.block_group h.linked hM hall
        (fun p hp => (hsleep' p hp).trans (congrFun hB p)) hWq
  · rename_i wp hw
    obtain ⟨rfl, -⟩ := Prod.mk.inj (Option.some.inj hs)
    refine h.of_same hlinks ?_
    rw [hN, hB]
    have hw₀ : s.heap q = some (.writePort wp) := hheap ▸ hw
    exact h.covered.forget h.linked (by simp [gport?, hw₀]) (by simp [members?, hw₀]) hWq

theorem resume (h : WakeOk s) {t : ℕ} (hs : portResume s t = some (s', res)) : WakeOk s' := by
  unfold portResume at hs
  split at hs
  · exact absurd hs (by simp)
  · rename_i w hfind
    have hperm := List.perm_cons_erase (List.mem_of_find?_eq_some hfind)
    have hsame : SameLinks s
        { s with woken := s.woken.erase w, reading := s.reading.erase t } := .of_heap rfl rfl
    have hcount : ∀ q, s.due q = (if w.port = q ∧ w.ret = .noError then 1 else 0)
        + (s.woken.erase w).countP fun v => v.port = q ∧ v.ret = .noError := fun q => by
      rw [due, hperm.countP_eq, List.countP_cons, Nat.add_comm]
      simp
    dsimp only at hs
    split at hs
    · rename_i hret
      have hpos : 0 < s.due w.port := by
        rw [hcount w.port, if_pos ⟨rfl, hret⟩]
        omega
      have hW : ({ s with woken := s.woken.erase w, reading := s.reading.erase t } : Ports α).due
          = update s.due w.port (s.due w.port - 1) := by
        funext q
        rcases eq_or_ne q w.port with rfl | hq
        · rw [update_self, hcount w.port, if_pos ⟨rfl, hret⟩]
          simp [due]
        · rw [update_of_ne hq, hcount q, if_neg fun hw => hq hw.1.symm]
          simp [due]
      refine h.read hsame rfl rfl (.inr ⟨hpos, hW⟩) (fun he => ?_) hs
      -- the woken thread is no longer due, so the counts are not the same
      have := congrFun (hW.symm.trans he) w.port
      rw [update_self] at this
      omega
    · rename_i hret
      obtain ⟨rfl, -⟩ := Prod.mk.inj (Option.some.inj hs)
      refine h.of_same hsame ?_
      have hW : ({ s with woken := s.woken.erase w, reading := s.reading.erase t } : Ports α).due
          = s.due := by
        funext q
        rw [hcount q, if_neg fun hw => hret hw.2]
        simp [due]
      rw [hW]
      exact h.covered

theorem timer (h : WakeOk s) {p t : ℕ} (hs : portTimer s p t = some (s', res)) : WakeOk s' := by
  unfold portTimer at hs
  split at hs
  · exact absurd hs (by simp)
  · rename_i r hfind
    split at hs
    · exact absurd hs (by simp)
    · obtain ⟨rfl, -⟩ := Prod.mk.inj (Option.some.inj hs)
      refine h.of_same (.of_heap rfl rfl) ?_
      have hW : ({ s with
          wait := update s.wait p ((s.wait p).erase r)
          woken := s.woken ++ [⟨r, p, .timedOut⟩] } : Ports α).due = s.due := by
        funext q
        simp [due]
      rw [hW]
      refine h.covered.mono (fun _ => le_rfl) fun q hb => ?_
      rcases eq_or_ne q p with rfl | hqp
      · exact List.length_pos_of_mem (List.mem_of_find?_eq_some hfind)
      · simpa [sleepers, hqp] using hb

/-- **A port joins a group** whose ports nobody reads directly, or which has none. -/
theorem groupAdd (h : WakeOk s) {g r : ℕ}
    (hc : s.gport? r = some none → (s.packets r ≤ 1 ∨ s.sleepers g ≤ 1) ∧
      ∀ l, s.members? g = some l → l ≠ [] → ∀ q ∈ l ++ [r], s.sleepers q = 0 ∧ s.due q = 0)
    (hs : portGroupAdd s g r = some (s', res)) : WakeOk s' := by
  have hgroups := h.groups.groupAdd hs
  unfold portGroupAdd at hs
  split at hs
  · obtain ⟨rfl, -⟩ := Prod.mk.inj (Option.some.inj hs)
    exact h
  · split at hs
    · exact absurd hs (by simp)
    · rename_i pg hg
      split at hs
      · exact absurd hs (by simp)
      · rename_i rp hr
        split at hs
        · obtain ⟨rfl, -⟩ := Prod.mk.inj (Option.some.inj hs)
          exact h
        · rename_i hn
          split at hs
          · obtain ⟨rfl, -⟩ := Prod.mk.inj (Option.some.inj hs)
            exact h
          · obtain ⟨l, rfl⟩ : ∃ l, pg = ⟨l⟩ := ⟨pg.rpList, rfl⟩
            have hM : s.members? g = some l := Ports.members?_eq_some.2 hg
            have hG : s.gport? r = some none := by
              simpa [gport?, hr] using hn
            obtain ⟨hgport, hmembers⟩ := GroupsOk.join_links hr hM
            obtain ⟨hfew, hclean⟩ := hc hG
            have hpackets : ((s.set r (.readPort { rp with gport := some g })).set g
                (.portGroup ⟨l ++ [r]⟩)).packets = s.packets := by
              funext q
              rcases eq_or_ne q g with rfl | hqg
              · simp [packets, unread, Ports.set, hg]
              · rcases eq_or_ne q r with rfl | hqr
                · simp [packets, unread, Ports.set, hqg, hr]
                · simp [packets, unread, Ports.set, hqg, hqr]
            have hempty : bufIsEmpty rp.buf ↔ s.packets r = 0 := by
              rw [PortBuf.bufIsEmpty_iff, packets, unread_of_heap hr, List.length_eq_zero_iff]
            obtain ⟨rfl, -⟩ := Prod.mk.inj (Option.some.inj hs)
            split at hgroups
            · rename_i hb
              rw [if_pos hb]
              refine ⟨hgroups, ?_⟩
              rw [hgport, hmembers, hpackets]
              exact h.covered.join_wake h.linked hG hM hfew (hclean l hM)
                (.inr ⟨.inl (hempty.1 hb), rfl, rfl⟩)
            · rename_i hb
              rw [if_neg hb]
              have hlinks := wakeOne_sameLinks ((s.set r (.readPort { rp with
                gport := some g })).set g (.portGroup ⟨l ++ [r]⟩)) g .noError
              refine ⟨hgroups, ?_⟩
              rw [hlinks.gport, hlinks.members, hgport, hmembers,
                packets_congr (waitQueueWakeOne_heap ..), hpackets]
              refine h.covered.join_wake h.linked hG hM hfew (hclean l hM) ?_
              rcases wakeOne_cases ((s.set r (.readPort { rp with gport := some g })).set g
                (.portGroup ⟨l ++ [r]⟩)) g with ⟨hpos, -, hB', hW'⟩ | ⟨hzero, he⟩
              · exact .inl ⟨hpos, hB', hW'⟩
              · exact .inr ⟨.inr hzero, by rw [he]; rfl, by rw [he]; rfl⟩
      · obtain ⟨rfl, -⟩ := Prod.mk.inj (Option.some.inj hs)
        exact h
    · obtain ⟨rfl, -⟩ := Prod.mk.inj (Option.some.inj hs)
      exact h

end WakeOk

/-! ### Before anybody reads -/

/-- Nobody is blocked or woken. -/
structure Idle (s : Ports α) : Prop where
  wait : ∀ h, s.wait h = []
  woken : s.woken = []

namespace Idle

variable {s s' : Ports α} {res : Result α} (hi : Idle s)
include hi

theorem wakeOne (h : ℕ) (err : PortStatus) : waitQueueWakeOne s h err = (s, 0) := by
  unfold waitQueueWakeOne
  rw [hi.wait h]

theorem wakeAll (h : ℕ) (err : PortStatus) : Idle (waitQueueWakeAll s h err) := by
  refine ⟨fun q => ?_, ?_⟩
  · rcases eq_or_ne q h with rfl | hq
    · simp [waitQueueWakeAll]
    · simp [waitQueueWakeAll, hq, hi.wait q]
  · simp [waitQueueWakeAll, hi.wait h, hi.woken]

theorem set (h : ℕ) (o : Object α) : Idle (s.set h o) := ⟨hi.wait, hi.woken⟩

theorem free (h : ℕ) : Idle (s.free h) := ⟨hi.wait, hi.woken⟩

theorem clearGport (l : List ℕ) : Idle (Port.clearGport s l) := by
  induction l generalizing s with
  | nil => exact hi
  | cons r l ih =>
    unfold Port.clearGport
    split
    · exact ih (hi.set ..)
    · exact ih hi

theorem groupLoop {g : ℕ} {done rs : List ℕ} {b : Bool}
    (hs : Port.groupLoop s g done rs = some (s', b)) : Idle s' := by
  induction rs generalizing s done with
  | nil =>
    obtain ⟨rfl, -⟩ := Prod.mk.inj (Option.some.inj hs)
    exact hi
  | cons r rs ih =>
    unfold Port.groupLoop at hs
    split at hs
    · exact absurd hs (by simp)
    · split at hs
      · obtain ⟨rfl, -⟩ := Prod.mk.inj (Option.some.inj hs)
        exact hi.clearGport done
      · exact ih ((hi.set ..).set ..) hs
    · obtain ⟨rfl, -⟩ := Prod.mk.inj (Option.some.inj hs)
      exact hi.clearGport done

theorem group {ports : List ℕ} {pg : Option ℕ}
    (hs : portGroup s ports pg = some (s', res)) : Idle s' := by
  unfold portGroup at hs
  split at hs
  · obtain ⟨rfl, -⟩ := Prod.mk.inj (Option.some.inj hs)
    exact hi
  · split at hs
    · obtain ⟨rfl, -⟩ := Prod.mk.inj (Option.some.inj hs)
      exact hi
    · obtain ⟨⟨s₁, b⟩, h₁, he⟩ := Option.map_eq_some_iff.1 hs
      have hi₁ := (hi.set ..).groupLoop h₁
      cases b with
      | true =>
        obtain ⟨rfl, -⟩ := Prod.mk.inj he
        exact hi₁
      | false =>
        obtain ⟨rfl, -⟩ := Prod.mk.inj he
        exact hi₁.free _

theorem groupAdd {g r : ℕ} (hs : portGroupAdd s g r = some (s', res)) : Idle s' := by
  unfold portGroupAdd at hs
  split at hs
  · obtain ⟨rfl, -⟩ := Prod.mk.inj (Option.some.inj hs)
    exact hi
  · split at hs
    · exact absurd hs (by simp)
    · split at hs
      · exact absurd hs (by simp)
      · split at hs
        · obtain ⟨rfl, -⟩ := Prod.mk.inj (Option.some.inj hs)
          exact hi
        · split at hs
          · obtain ⟨rfl, -⟩ := Prod.mk.inj (Option.some.inj hs)
            exact hi
          · obtain ⟨rfl, -⟩ := Prod.mk.inj (Option.some.inj hs)
            split
            · exact (hi.set ..).set ..
            · rw [((hi.set ..).set ..).wakeOne]
              exact (hi.set ..).set ..
      · obtain ⟨rfl, -⟩ := Prod.mk.inj (Option.some.inj hs)
        exact hi
    · obtain ⟨rfl, -⟩ := Prod.mk.inj (Option.some.inj hs)
      exact hi

theorem writeLoop {pk : List α} {rs : List ℕ} {st st' : PortStatus}
    (hs : Port.writeLoop s pk st rs = some (s', st')) : Idle s' := by
  induction rs generalizing s st with
  | nil =>
    obtain ⟨rfl, -⟩ := Prod.mk.inj (Option.some.inj hs)
    exact hi
  | cons r rs ih =>
    obtain ⟨⟨s₁, b⟩, h₁, h₂⟩ := Option.bind_eq_some_iff.1 hs
    refine ih ?_ h₂
    unfold Port.writeReader at h₁
    split at h₁
    · split at h₁
      · obtain ⟨rfl, -⟩ := Prod.mk.inj (Option.some.inj h₁)
        exact hi
      · obtain ⟨s₂, hw, he⟩ := Option.map_eq_some_iff.1 h₁
        obtain ⟨rfl, -⟩ := Prod.mk.inj he
        have hset := hi.set r
        unfold Port.wakeReader at hw
        simp only [(hset _).wakeOne] at hw
        split at hw
        · cases hw
          exact hset _
        · split at hw
          · cases hw
            exact hset _
          · exact absurd hw (by simp)
    · exact absurd h₁ (by simp)

theorem write {w : ℕ} {pk : List α} (hs : portWrite s w pk = some (s', res)) : Idle s' := by
  unfold portWrite at hs
  split at hs
  · obtain ⟨rfl, -⟩ := Prod.mk.inj (Option.some.inj hs)
    exact hi
  · split at hs
    · exact absurd hs (by simp)
    · split at hs
      · obtain ⟨rfl, -⟩ := Prod.mk.inj (Option.some.inj hs)
        exact hi
      · split at hs
        · split at hs
          · obtain ⟨rfl, -⟩ := Prod.mk.inj (Option.some.inj hs)
            exact hi
          · obtain ⟨rfl, -⟩ := Prod.mk.inj (Option.some.inj hs)
            exact hi.set ..
        · obtain ⟨⟨s₁, st⟩, h₁, he⟩ := Option.map_eq_some_iff.1 hs
          obtain ⟨rfl, -⟩ := Prod.mk.inj he
          exact hi.writeLoop h₁
    · obtain ⟨rfl, -⟩ := Prod.mk.inj (Option.some.inj hs)
      exact hi

theorem read {q : ℕ} {t : Reader} (ht : t.timeout = 0)
    (hs : portRead s q t = some (s', res)) : Idle s' := by
  unfold portRead at hs
  split at hs
  · obtain ⟨rfl, -⟩ := Prod.mk.inj (Option.some.inj hs)
    exact hi
  · unfold readLocked at hs
    split at hs
    · exact absurd hs (by simp)
    · obtain rfl : _ = s' := congrArg Prod.fst (Option.some.inj hs)
      unfold readNoLock
      split
      · exact hi.set ..
      · rwa [(WakeOk.blockReader_counts s q t).2.2.2 ht]
    · rcases WakeOk.readGroup_cases hs with ⟨r, -, rp, p, b, -, -, rfl⟩ | ⟨-, rfl⟩
      · exact hi.set ..
      · rwa [(WakeOk.blockReader_counts s q t).2.2.2 ht]
    · obtain ⟨rfl, -⟩ := Prod.mk.inj (Option.some.inj hs)
      exact hi

theorem destroyLoop {rs : List ℕ} (hs : Port.destroyLoop s rs = some s') : Idle s' := by
  induction rs generalizing s with
  | nil =>
    cases hs
    exact hi
  | cons r rs ih =>
    unfold Port.destroyLoop at hs
    split at hs
    · dsimp only at hs
      split at hs
      · exact ih ((hi.wakeAll ..).set ..) hs
      · split at hs
        · exact ih (((hi.wakeAll ..).wakeAll ..).set ..) hs
        · exact absurd hs (by simp)
    · exact absurd hs (by simp)

theorem destroy {w : ℕ} (hs : portDestroy s w = some (s', res)) : Idle s' := by
  unfold portDestroy at hs
  split at hs
  · obtain ⟨rfl, -⟩ := Prod.mk.inj (Option.some.inj hs)
    exact hi
  · split at hs
    · exact absurd hs (by simp)
    · split at hs
      · have hlist : Idle { s with writePortList := s.writePortList.erase w } := ⟨hi.wait, hi.woken⟩
        dsimp only at hs
        split at hs
        · obtain ⟨rfl, -⟩ := Prod.mk.inj (Option.some.inj hs)
          exact hlist.free w
        · obtain ⟨s₂, h₂, he⟩ := Option.map_eq_some_iff.1 hs
          obtain ⟨rfl, -⟩ := Prod.mk.inj he
          exact (hlist.destroyLoop h₂).free w
      · obtain ⟨rfl, -⟩ := Prod.mk.inj (Option.some.inj hs)
        exact hi
    · obtain ⟨rfl, -⟩ := Prod.mk.inj (Option.some.inj hs)
      exact hi

theorem close {p : ℕ} (hs : portClose s p = some (s', res)) : Idle s' := by
  unfold portClose at hs
  split at hs
  · obtain ⟨rfl, -⟩ := Prod.mk.inj (Option.some.inj hs)
    exact hi
  · split at hs
    · exact absurd hs (by simp)
    · obtain ⟨s₁, h₁, hs⟩ := Option.bind_eq_some_iff.1 hs
      obtain ⟨s₂, h₂, he⟩ := Option.map_eq_some_iff.1 hs
      obtain ⟨rfl, -⟩ := Prod.mk.inj he
      have hi₁ : Idle s₁ := by
        unfold closeWport at h₁
        split at h₁
        · exact Option.some.inj h₁ ▸ hi
        · split at h₁
          · split at h₁
            · exact Option.some.inj h₁ ▸ hi.set ..
            · exact absurd h₁ (by simp)
          · exact absurd h₁ (by simp)
      have hi₂ : Idle s₂ := by
        unfold closeGport at h₂
        split at h₂
        · exact Option.some.inj h₂ ▸ hi₁
        · split at h₂
          · split at h₂
            · exact Option.some.inj h₂ ▸ hi₁.set ..
            · exact absurd h₂ (by simp)
          · exact absurd h₂ (by simp)
      exact (hi₂.wakeAll ..).free p
    · obtain ⟨rfl, -⟩ := Prod.mk.inj (Option.some.inj hs)
      exact ((hi.wakeAll ..).clearGport _).free p
    · split at hs
      · obtain ⟨rfl, -⟩ := Prod.mk.inj (Option.some.inj hs)
        exact hi
      · obtain ⟨rfl, -⟩ := Prod.mk.inj (Option.some.inj hs)
        exact hi.set ..

end Idle

/-- A read does not block. -/
def Call.Waitless : Call α → Prop
  | .read _ t => t.timeout = 0
  | _ => True

instance : ∀ c : Call α, Decidable c.Waitless
  | .read _ t => inferInstanceAs (Decidable (t.timeout = 0))
  | .create .. | .openPort .. | .group .. | .groupAdd .. | .groupRemove .. | .write ..
  | .resume .. | .timer .. | .destroy .. | .close .. => .isTrue trivial

section Step

variable {s s' : Ports α}

/-- Before anybody reads with a time-out nobody is blocked. -/
theorem Idle.step [Inhabited α] (hi : Idle s) {c : Call α} (hk : c.KeepsMembers s)
    (hw : c.Waitless) (hs : portNext s c = some s') : Idle s' := by
  obtain ⟨⟨s₁, res⟩, hstep, rfl⟩ := Option.map_eq_some_iff.1 hs
  unfold portStep at hstep
  split at hstep
  · exact absurd hstep (by simp)
  · cases c with
    | create name mode wp bufOk =>
      dsimp only at hstep
      split at hstep
      · rw [← congrArg Prod.fst (Option.some.inj hstep)]
        unfold portCreate
        repeat' split
        all_goals exact ⟨hi.wait, hi.woken⟩
      · exact absurd hstep (by simp)
    | openPort name ctx rp bufOk =>
      dsimp only at hstep
      split at hstep
      · rw [← congrArg Prod.fst (Option.some.inj hstep)]
        unfold portOpen
        repeat' split
        all_goals exact ⟨hi.wait, hi.woken⟩
      · exact absurd hstep (by simp)
    | group ports pg =>
      dsimp only at hstep
      split at hstep
      · exact hi.group hstep
      · exact absurd hstep (by simp)
    | groupAdd g r => exact hi.groupAdd hstep
    | groupRemove g r => rwa [portGroupRemove_keeps hk hstep]
    | write w pk => exact hi.write hstep
    | read p t =>
      dsimp only at hstep
      split at hstep
      · exact absurd hstep (by simp)
      · exact hi.read hw hstep
    | resume t => simp [portResume, hi.woken] at hstep
    | timer p t => simp [portTimer, hi.wait p] at hstep
    | destroy w => exact hi.destroy hstep
    | close p => exact hi.close hstep

/-- Where nobody sleeps everything is covered. -/
theorem Idle.wakeOk (hi : Idle s) (hg : GroupsOk s) : WakeOk s := by
  have hB : ∀ q, s.sleepers q = 0 := fun q => by simp [Ports.sleepers, hi.wait q]
  have hW : ∀ q, s.due q = 0 := fun q => by simp [Ports.due, hi.woken]
  refine ⟨hg, s.kinds, fun r _ hb => ?_, fun g l _ hb => ?_, fun g l _ _ r _ => ⟨hB r, hW r⟩⟩
  · rw [hB r] at hb
    exact absurd hb (by decide)
  · rcases hb with hb | ⟨r, -, hb⟩
    · rw [hB g] at hb
      exact absurd hb (by decide)
    · rw [hB r] at hb
      exact absurd hb (by decide)

end Step

/-! ### The property -/

namespace Ports

/-- The readers of a write port. -/
def readersOf (s : Ports α) (w : ℕ) : List ℕ :=
  match s.heap w with
  | some (.writePort wp) => wp.rpList
  | _ => []

/-- The free slots of a read port. -/
def room (s : Ports α) (r : ℕ) : ℕ :=
  match s.heap r with
  | some (.readPort rp) => rp.buf.avail
  | _ => 0

end Ports

/-- **No reader asleep beside packets.**  Where a thread is blocked on a read port
with unread packets, or on its group, there are at least as many woken readers of the
two still to run as unread packets; so when no woken reader is left to run, nobody is
blocked beside a packet. -/
structure Awake (s : Ports α) : Prop where
  covered : ∀ r rp, s.heap r = some (.readPort rp) → s.packets r ≠ 0 →
    (s.sleepers r ≠ 0 ∨ ∃ g, rp.gport = some g ∧ s.sleepers g ≠ 0) →
    s.packets r ≤ s.due r + rp.gport.elim 0 s.due
  awake : (∀ h, s.due h = 0) → ∀ r rp, s.heap r = some (.readPort rp) → s.packets r ≠ 0 →
    s.sleepers r = 0 ∧ ∀ g, rp.gport = some g → s.sleepers g = 0

/-- A write, a `port_group_add` or a read such that: where two or more packets come to
a port, at most one thread is blocked there and on its group; a thread goes to sleep on
a port only if the port shares its group with no other; a port with two or more packets
joins a group with at most one thread blocked; and a port joins a group that has ports
only if no thread reads it or them directly. -/
def Call.Wakeful (s : Ports α) : Call α → Prop
  | .write w pk => pk.length ≤ 1 ∨ ∀ r ∈ s.readersOf w, pk.length ≤ s.room r →
      s.sleepers r + (s.gport? r).join.elim 0 s.sleepers ≤ 1
  | .read h t => t.timeout = 0 ∨ s.packets h ≠ 0 ∨
      ∀ g ∈ (s.gport? h).join, s.members? g = some [h]
  | .groupAdd g r => s.gport? r = some none → (s.packets r ≤ 1 ∨ s.sleepers g ≤ 1) ∧
      ∀ l ∈ s.members? g, l ≠ [] → ∀ q ∈ l ++ [r], s.sleepers q = 0 ∧ s.due q = 0
  | .resume _ | .timer _ _ => True
  | _ => False

instance (s : Ports α) : ∀ c : Call α, Decidable (c.Wakeful s)
  | .write w pk => inferInstanceAs (Decidable (pk.length ≤ 1 ∨ ∀ r ∈ s.readersOf w,
      pk.length ≤ s.room r → s.sleepers r + (s.gport? r).join.elim 0 s.sleepers ≤ 1))
  | .read h t => inferInstanceAs (Decidable (t.timeout = 0 ∨ s.packets h ≠ 0 ∨
      ∀ g ∈ (s.gport? h).join, s.members? g = some [h]))
  | .groupAdd g r => inferInstanceAs (Decidable (s.gport? r = some none →
      (s.packets r ≤ 1 ∨ s.sleepers g ≤ 1) ∧
        ∀ l ∈ s.members? g, l ≠ [] → ∀ q ∈ l ++ [r], s.sleepers q = 0 ∧ s.due q = 0))
  | .resume .. | .timer .. => .isTrue trivial
  | .create .. | .openPort .. | .group .. | .groupRemove .. | .destroy .. | .close .. =>
    .isFalse id

section Run

open Ports

variable {s s' : Ports α}

theorem WakeOk.awake (h : WakeOk s) : Awake s := by
  have hcov : ∀ r rp, s.heap r = some (.readPort rp) →
      (s.sleepers r ≠ 0 ∨ ∃ g, rp.gport = some g ∧ s.sleepers g ≠ 0) →
      s.packets r ≤ s.due r + rp.gport.elim 0 s.due := by
    intro r rp hr hb
    refine h.covered.unread_le h.linked (by simp [gport?, hr]) ?_
    exact hb.imp Nat.pos_of_ne_zero (Exists.imp fun _ => And.imp_right Nat.pos_of_ne_zero)
  refine ⟨fun r rp hr _ => hcov r rp hr, fun hdue r rp hr hne => ?_⟩
  have hzero : s.due r + rp.gport.elim 0 s.due = 0 := by
    cases rp.gport with
    | none => simp [hdue r]
    | some g => simp [hdue r, hdue g]
  refine ⟨?_, fun g hg => ?_⟩
  · by_contra hb
    have := hcov r rp hr (.inl hb)
    omega
  · by_contra hb
    have := hcov r rp hr (.inr ⟨g, hg, hb⟩)
    omega

variable [Inhabited α]

theorem WakeOk.step (h : WakeOk s) {c : Call α} (hc : c.Wakeful s)
    (hs : portNext s c = some s') : WakeOk s' := by
  obtain ⟨⟨s₁, res⟩, hstep, rfl⟩ := Option.map_eq_some_iff.1 hs
  unfold portStep at hstep
  rw [if_neg (by simp [h.groups.unlocked])] at hstep
  cases c with
  | write w pk =>
    refine h.write (fun wp hw r hr => hc.imp_right fun hc rp hrp hlen => ?_) hstep
    have hle := hc r (by simpa [readersOf, hw] using hr) (by simpa [room, hrp] using hlen)
    simpa [gport?, hrp] using hle
  | read q t =>
    dsimp only at hstep
    split at hstep
    · exact absurd hstep (by simp)
    · unfold portRead at hstep
      split at hstep
      · obtain ⟨rfl, -⟩ := Prod.mk.inj (Option.some.inj hstep)
        exact h
      · refine h.read (.refl s) rfl rfl (.inl rfl) (fun _ => ?_) hstep
        exact hc.imp_right fun hc => hc.imp_right fun hc g hg => hc g (by simp [hg])
  | groupAdd g r =>
    exact h.groupAdd (fun hG => (hc hG).imp_right fun hc l hl => hc l (by simpa using hl)) hstep
  | resume t => exact h.resume hstep
  | timer q t => exact h.timer hstep
  | create | openPort | group | groupRemove | destroy | close => exact absurd hc id

/-- **Readers stay awake.**  From any state that calls other than blocking reads and
removals of group members lead to, an interleaving of writes, `port_group_add`s and
reads whose steps are wakeful leaves no reader asleep beside packets, at any point. -/
theorem readers_awake (setup as : List (Call α)) (s₀ : Ports α)
    (hsetup : run portNext portInit setup = some s₀)
    (hcalls : Along portNext (fun s c => c.KeepsMembers s ∧ c.Waitless) portInit setup)
    (hwake : Along portNext (fun s c => c.Wakeful s) s₀ as) :
    Throughout portNext Awake s₀ as := by
  have hinit : GroupsOk (portInit : Ports α) ∧ Idle (portInit : Ports α) :=
    ⟨.init, fun _ => rfl, rfl⟩
  have hstep : ∀ (s : Ports α) (c : Call α) s', GroupsOk s ∧ Idle s →
      c.KeepsMembers s ∧ c.Waitless → portNext s c = some s' → GroupsOk s' ∧ Idle s' :=
    fun s c s' hs hc h => ⟨hs.1.step hc.1 h, hs.2.step hc.1 hc.2 h⟩
  obtain ⟨hgroups, hidle⟩ := run_inv_along hstep setup _ _ hinit hcalls hsetup
  exact (hwake.throughout (fun s c s' hs hc h => WakeOk.step hs hc h)
    (hidle.wakeOk hgroups)).imp fun _ => WakeOk.awake

end Run

/-- One reader on a port with a packet at a time, and a group of two ports read through
the group. -/
def readersSetup : List (Call ℕ) :=
  [.create ['a'] portModeUnicast (some 1) true, .create ['b'] portModeUnicast (some 2) true,
    .openPort ['a'] 0 (some 3) true, .openPort ['b'] 0 (some 4) true, .group [3] (some 5)]

def readersCalls : List (Call ℕ) :=
  [.read 5 ⟨1, infiniteTime⟩, .read 5 ⟨2, 100⟩, .groupAdd 5 4, .write 2 [7], .write 1 [8],
    .resume 1, .read 5 ⟨1, 100⟩, .resume 2, .timer 5 2, .read 4 ⟨3, 0⟩]

/-- A packet comes to each port of a group that two threads read, one of them with a time-out. -/
theorem readers_awake_group :
    ∃ s₀ : Ports ℕ, run portNext portInit readersSetup = some s₀ ∧
      Throughout portNext Awake s₀ readersCalls :=
  ⟨_, rfl, readers_awake readersSetup readersCalls _ rfl (by decide) (by decide)⟩

/-- **A reader left asleep.**  Two threads sleep on a port, a write of two packets wakes
one of them, and when it has run the other still sleeps beside the second packet.  And
packets one at a time: a thread sleeps on port 4, another on the group of 3 and 4; the
packet for 4 wakes the second, which then takes the packet that came to 3. -/
theorem reader_left_asleep :
    (∃ s : Ports ℕ, run portNext portInit
        [.create ['a'] portModeUnicast (some 1) true, .openPort ['a'] 0 (some 2) true,
          .read 2 ⟨1, infiniteTime⟩, .read 2 ⟨2, infiniteTime⟩, .write 1 [7, 8], .resume 1]
        = some s ∧ ¬ Awake s) ∧ ∃ s : Ports ℕ, run portNext portInit
        [.create ['a'] portModeUnicast (some 1) true, .create ['b'] portModeUnicast (some 2) true,
          .openPort ['a'] 0 (some 3) true, .openPort ['b'] 0 (some 4) true, .group [3, 4] (some 5),
          .read 4 ⟨2, infiniteTime⟩, .read 5 ⟨1, infiniteTime⟩, .write 2 [7], .write 1 [8],
          .resume 1] = some s ∧ ¬ Awake s := by
  refine ⟨⟨_, rfl, fun h => ?_⟩, _, rfl, fun h => ?_⟩
  · exact absurd (h.covered 2 _ rfl (by decide) (.inl (by decide))) (by decide)
  · exact absurd (h.covered 4 _ rfl (by decide) (.inl (by decide))) (by decide)

end Port
end LittleKernel
