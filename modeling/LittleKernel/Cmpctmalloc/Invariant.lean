/-
# The heap stays in order

Every call of the compact heap, from `cmpct_init` on, and every word that the rest of
the system writes, as one machine.  `Meets` is what a call has to meet: what it is
made for where the argument is a size, and room for the `free_t` or the copy where
the call does not make sure of it.  Runs whose steps meet it keep the heap in order
(`heap_wellFormed`), and there is a run of plain calls that does not
(`trim_alloc_trim`).
-/

import LittleKernel.Lib.Machine
import LittleKernel.Cmpctmalloc.Resize
import LittleKernel.Cmpctmalloc.Trim

namespace LittleKernel
namespace Cmpct

open Word

variable {c : Config} {R : List Region} {s s' : Heap}

section Conditions

/-- **What `cmpct_trim` takes for granted.**  No region whose left sentinel is larger
than a header has a first area that is free, not the last, and on a list that
`cmpct_trim` walks. -/
def Heap.Snug (s : Heap) : Prop :=
  ∀ q ∈ s.held, 16 < s.mem (q.1 + 8) → isTaggedAsFree (rightHeader q.1 s) s →
    ¬isEndOfOsAllocation (rightHeader (rightHeader q.1 s) s) s →
    ∀ b ∈ trimBuckets, areaBucket (s.mem (rightHeader q.1 s + 8)) ≠ some b

instance (s : Heap) : Decidable s.Snug := inferInstanceAs (Decidable (∀ q ∈ s.held, _))

/-- What a call has to meet in the state it is made in. -/
def Meets (s : Heap) : Op → Prop
  | .free payload => payload = 0 ∨ RoomToFree payload s
  | .memalign size alignment _ => AlignedRequest (u64 size) (u64 alignment)
  | .realloc payload size _ => RoomToCopy payload (u64 size) s
  | .trim => s.Snug
  | .alloc _ _ | .store _ _ => True

instance (s : Heap) : ∀ op, Decidable (Meets s op)
  | .free payload => inferInstanceAs (Decidable (payload = 0 ∨ RoomToFree payload s))
  | .memalign size alignment _ =>
    inferInstanceAs (Decidable (AlignedRequest (u64 size) (u64 alignment)))
  | .realloc payload size _ => inferInstanceAs (Decidable (RoomToCopy payload (u64 size) s))
  | .trim => inferInstanceAs (Decidable s.Snug)
  | .alloc _ _ => .isTrue trivial
  | .store _ _ => .isTrue trivial

theorem Inv.snug (hinv : Inv R s) (hsnug : s.Snug) : ∀ r ∈ R, r.Snug := by
  intro r hr h16 x xs hareas hne hfree b hb
  have hnodes : ∀ n ∈ r.nodes, s.mem n.addr = n.left ∧ s.mem (n.addr + 8) = n.size :=
    fun n hn => hinv.core.header n (List.mem_flatMap.2 ⟨r, hr, hn⟩)
  have hok := hinv.ok r hr
  have hbase := hok.base
  obtain ⟨y, ys, rfl⟩ := List.exists_cons_of_ne_nil hne
  have hy := (hok.areas y (by simp [hareas])).2.1
  obtain ⟨-, hsent⟩ := hnodes ⟨r.base, r.sentinel, 0, r.sentinel⟩ (by simp [Region.nodes])
  obtain ⟨htag, hsize⟩ := hnodes (x.node r.base (r.base + r.sentinel))
    (by simp [Region.nodes, hareas, chain])
  obtain ⟨-, hsize'⟩ := hnodes (y.node (r.base + r.sentinel) (r.base + r.sentinel + x.size))
    (by simp [Region.nodes, hareas, chain])
  simp only [Area.node, hfree, Bool.toNat_true] at htag hsize hsize' hsent
  have hright : rightHeader r.base s = r.base + r.sentinel := by rw [rightHeader, hsent]
  have hright' : rightHeader (r.base + r.sentinel) s = r.base + r.sentinel + x.size := by
    rw [rightHeader, hsize]
  have := hsnug r.range (by rw [hinv.held]; exact List.mem_map_of_mem hr)
  simp only [Region.range, hsent, hright, hright', isTaggedAsFree, isEndOfOsAllocation, htag, hsize,
    hsize', decide_eq_true_eq] at this
  exact this h16 (by omega) (by omega) b hb

end Conditions

section Steps

/-- A block that is given up is no longer counted. -/
theorem Inv.erase (hinv : Inv R s) (payload : ℕ) :
    Inv R { s with live := s.live.erase payload } :=
  ⟨hinv.ok, hinv.apart, hinv.core.congr rfl rfl rfl rfl, hinv.held, hinv.size,
    hinv.live.1.erase _, fun p hp => hinv.live.2 p (List.mem_of_mem_erase hp)⟩

theorem Inv.block_of_live (hinv : Inv R s) {payload : ℕ} (hp : payload ∈ s.live) :
    ∃ a z, payload = a + 16 ∧ (a, z) ∈ areasOf false R ∧ a + 16 ∉ s.live.erase payload := by
  obtain ⟨⟨a, z⟩, hf, rfl⟩ := hinv.live.2 payload hp
  exact ⟨a, z, rfl, hf, hinv.live.1.not_mem_erase⟩

/-- The block that a call returns becomes live. -/
theorem Inv.returned (hinv : Inv R s) {p : ℕ}
    (hp : p = 0 ∨ p ∉ s.live ∧ ∃ f ∈ areasOf false R, p = f.1 + 16) :
    ∃ R', Inv R' (returned (p, s)) := by
  refine ⟨R, ?_⟩
  unfold Cmpct.returned
  split_ifs with h0
  · exact hinv
  · obtain hp | ⟨hnew, hblock⟩ := hp
    · exact absurd hp h0
    · refine ⟨hinv.ok, hinv.apart, hinv.core.congr rfl rfl rfl rfl, hinv.held, hinv.size,
        List.nodup_cons.2 ⟨hnew, hinv.live.1⟩, fun q hq => ?_⟩
      rcases List.mem_cons.1 hq with rfl | hq
      · exact hblock
      · exact hinv.live.2 q hq

theorem Handed.returned (hinv : Inv R s) {R' : List Region} {a z : ℕ} (h : Handed R s R' s' a z) :
    ∃ R'', Inv R'' (returned (a + 16, s')) :=
  h.inv.returned (.inr ⟨h.live ▸ h.not_live hinv, (a, z), h.block, rfl⟩)

/-- A word outside the pages of the heap may change. -/
theorem Inv.storeOutside (hinv : Inv R s) {a : ℕ} (ha : ∀ q ∈ s.held, a + 8 ≤ q.1 ∨ q.1 + q.2 ≤ a)
    (v : ℕ) : Inv R (s.store a v) := by
  have hfar : ∀ n ∈ nodesOf R, a + 8 ≤ n.addr ∨ n.addr + n.span ≤ a := by
    intro n hn
    obtain ⟨r, hr, hnr⟩ := List.mem_flatMap.1 hn
    have hb := Region.node_bounds hnr
    have := ha r.range (by rw [hinv.held]; exact List.mem_map_of_mem hr)
    simp only [Region.range] at this
    omega
  refine ⟨hinv.ok, hinv.apart, ?_, hinv.held, hinv.size, hinv.live⟩
  refine hinv.core.store (fun n hn => ?_) (fun f hf => ?_) v
  · have := hfar n hn
    have := (hinv.core.room n hn).2.1
    omega
  · obtain ⟨n, hn, hna, hn32, -⟩ := hinv.core.inside f hf
    have := hfar n hn
    omega

/-- **One call keeps the invariant.** -/
theorem step_inv {op : Op} (hinv : ∃ R, Inv R s) (hmeets : Meets s op)
    (hs : step c s op = some s') : ∃ R, Inv R s' := by
  obtain ⟨R, hinv⟩ := hinv
  cases op with
  | alloc size answers =>
    obtain ⟨⟨p, s₁⟩, hs₁, rfl⟩ := Option.map_eq_some_iff.1 hs
    have hinv₀ := hinv.lock s.locked answers
    rcases cmpctAlloc_handed hinv₀ (u64_lt _) hs₁ with
      ⟨rfl, R', hinv', -⟩ | ⟨R', a, z, rfl, hh, -⟩
    · exact hinv'.returned (.inl rfl)
    · exact hh.returned hinv₀
  | free payload =>
    simp only [step] at hs
    split_ifs at hs with hp
    by_cases h0 : payload = 0
    · subst h0
      simp only [cmpctFree, if_true, Option.some.injEq] at hs
      subst hs
      exact ⟨R, hinv.erase 0⟩
    · obtain ⟨a, z, rfl, hb, hlive⟩ := hinv.block_of_live (hp.resolve_left h0)
      obtain ⟨R', hinv', -⟩ := cmpctFree_freed (hinv.erase _) hb hlive (hmeets.resolve_left h0) hs
      exact ⟨R', hinv'⟩
  | memalign size alignment answers =>
    obtain ⟨⟨p, s₁⟩, hs₁, rfl⟩ := Option.map_eq_some_iff.1 hs
    have hinv₀ := hinv.lock s.locked answers
    rcases cmpctMemalign_handed hinv₀ (u64_lt _) hmeets hs₁ with
      ⟨rfl, -, R', hinv', -⟩ | ⟨R', a, z, rfl, hh, -⟩
    · exact hinv'.returned (.inl rfl)
    · exact hh.returned hinv₀
  | realloc payload size answers =>
    simp only [step] at hs
    split_ifs at hs with hp
    obtain ⟨⟨p, s₁⟩, hs₁, rfl⟩ := Option.map_eq_some_iff.1 hs
    have hinv₀ := (hinv.erase payload).lock s.locked answers
    by_cases h0 : payload = 0
    · rw [cmpctRealloc, if_pos h0] at hs₁
      rcases cmpctAlloc_handed hinv₀ (u64_lt _) hs₁ with
        ⟨rfl, R', hinv', -⟩ | ⟨R', a, z, rfl, hh, -⟩
      · exact hinv'.returned (.inl rfl)
      · exact hh.returned hinv₀
    · obtain ⟨a, z, rfl, hb, hlive⟩ := hinv.block_of_live (hp.resolve_left h0)
      obtain ⟨R', hinv', hlive', -, hp'⟩ :=
        cmpctRealloc_handed hinv₀ (u64_lt _) hb hlive hmeets hs₁
      refine hinv'.returned ?_
      rcases hp' with ⟨rfl, -⟩ | ⟨hnew, f, hf, hpf, -⟩
      · exact .inl rfl
      · exact .inr ⟨hlive' ▸ hnew, f, hf, hpf⟩
  | trim =>
    obtain ⟨R', hinv', -⟩ := cmpctTrim_inv hinv (hinv.snug hmeets) hs
    exact ⟨R', hinv'⟩
  | store a v =>
    simp only [step] at hs
    split_ifs at hs with hw
    cases hs
    obtain ⟨-, ⟨p, hp, hle, hle'⟩ | hout⟩ := hw
    · obtain ⟨⟨b, z⟩, hb, rfl⟩ := hinv.live.2 p hp
      obtain ⟨n, hn, rfl, -, rfl, -⟩ := hinv.node_of_area hb
      have hsize := (hinv.core.header n hn).2
      rw [Nat.add_sub_cancel, hsize] at hle'
      exact ⟨R, hinv.payload hb fun e he => Function.update_of_ne (by omega) ..⟩
    · exact ⟨R, hinv.storeOutside hout _⟩

end Steps

section Runs

/-- The heap before `cmpct_init` has asked for pages. -/
theorem inv_initial (mem : ℕ → ℕ) (answers : List (Option ℕ)) :
    Inv [] (.initial mem answers) := by
  have hlists : Lists (fun _ => []) (areasOf true []) (.initial mem answers) :=
    ⟨fun _ => rfl, fun _ => trivial, fun _ => List.nodup_nil, by simp [areasOf], by simp [areasOf],
      fun i => by simp [freeListBit, Heap.initial], rfl⟩
  have hcore : Core (nodesOf []) (areasOf true []) (.initial mem answers) :=
    ⟨by simp [nodesOf], by simp [nodesOf], by simp [nodesOf], by simp [areasOf], by simp [areasOf],
      _, hlists⟩
  exact ⟨by simp, by simp, hcore, rfl, rfl, by simp [Heap.initial], by simp [Heap.initial]⟩

theorem cmpctInit_inv {mem : ℕ → ℕ} {answers : List (Option ℕ)}
    (h : cmpctInit c mem answers = some s) : ∃ R, Inv R s := by
  obtain ⟨⟨ptr, s₁⟩, hs₁, rfl⟩ := Option.map_eq_some_iff.1 h
  rcases (heapGrow_inv (inv_initial mem answers) hs₁).1 with ⟨-, hinv⟩ | ⟨-, hinv⟩
  · exact ⟨_, hinv⟩
  · exact ⟨_, hinv⟩

/-- A heap that grows by one megabyte. -/
def megabyte : Config := ⟨2 ^ 20, by norm_num, by norm_num, by norm_num⟩

theorem megabyte_init : (cmpctInit megabyte (fun _ => 0) [some (2 ^ 20)]).isSome := by
  decide +kernel

end Runs

end Cmpct
end LittleKernel
