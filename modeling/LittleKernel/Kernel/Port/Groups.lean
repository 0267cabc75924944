/-
# Port groups

A read port and its group point at each other: `rp->gport` names the group and
`pg->rp_list` holds the port.  `Linked` is that relation over the two maps
alone, with one lemma for each way of changing both sides; the calls are then
taken apart by what they do to `gport?` and `members?`.

Every call keeps the two sides together except `port_group_remove`, which takes
the port off the list and leaves `rp->gport` (`portGroupRemove_unlinks`).  So a
run has the property in all its states exactly when it removes no member
(`group_membership_iff`).  What follows from the stale `gport` is the second
slip: the next `port_group_remove` of the port does not find it and returns with
the thread lock held (`group_membership_lost`).
-/

import LittleKernel.Kernel.Port.Basic

namespace LittleKernel
namespace Port

open Machine Function

variable {α : Type}

/-! ### Membership stored on both sides -/

/-- `G` maps a live port to its group or to none, `M` a live group to its list. -/
structure Linked (G : ℕ → Option (Option ℕ)) (M : ℕ → Option (List ℕ)) : Prop where
  member : ∀ r g, G r = some (some g) → ∃ l, M g = some l ∧ r ∈ l
  back : ∀ g l, M g = some l → ∀ r ∈ l, G r = some (some g)
  nodup : ∀ g l, M g = some l → l.Nodup

namespace Linked

variable {G : ℕ → Option (Option ℕ)} {M : ℕ → Option (List ℕ)} {r g : ℕ} {l : List ℕ}

variable (h : Linked G M)
include h

/-- A port that is in no group may come and go. -/
theorem set_unlinked (hr : ∀ g, G r ≠ some (some g)) {x : Option (Option ℕ)}
    (hx : ∀ g, x ≠ some (some g)) : Linked (update G r x) M := by
  refine ⟨fun q g hq => ?_, fun g l hl q hq => ?_, h.nodup⟩
  · rcases eq_or_ne q r with rfl | hqr
    · exact absurd (by simpa using hq) (hx g)
    · exact h.member q g (by simpa [hqr] using hq)
  · have hqr : q ≠ r := by
      rintro rfl
      exact hr g (h.back g l hl q hq)
    simpa [hqr] using h.back g l hl q hq

theorem newGroup (hg : M g = none) :
    Linked G (update M g (some [])) := by
  refine ⟨fun r k hr => ?_, fun k l hl r hr => ?_, fun k l hl => ?_⟩
  · obtain ⟨l, hl, hrl⟩ := h.member r k hr
    have hkg : k ≠ g := by
      rintro rfl
      simp [hg] at hl
    exact ⟨l, by simpa [hkg] using hl, hrl⟩
  · rcases eq_or_ne k g with rfl | hkg
    · obtain rfl : [] = l := by simpa using hl
      simp at hr
    · exact h.back k l (by simpa [hkg] using hl) r hr
  · rcases eq_or_ne k g with rfl | hkg
    · obtain rfl : [] = l := by simpa using hl
      exact List.nodup_nil
    · exact h.nodup k l (by simpa [hkg] using hl)

theorem add (hr : G r = some none) (hg : M g = some l) :
    Linked (update G r (some (some g))) (update M g (some (l ++ [r]))) := by
  have hrl : r ∉ l := fun hmem => by simpa [hr] using h.back g l hg r hmem
  refine ⟨fun q k hq => ?_, fun k l' hl q hq => ?_, fun k l' hl => ?_⟩
  · rcases eq_or_ne q r with rfl | hqr
    · obtain rfl : g = k := by simpa using hq
      exact ⟨l ++ [q], by simp, by simp⟩
    · obtain ⟨l', hl', hmem⟩ := h.member q k (by simpa [hqr] using hq)
      rcases eq_or_ne k g with rfl | hkg
      · obtain rfl : l = l' := Option.some.inj (hg.symm.trans hl')
        exact ⟨l ++ [r], by simp, by simp [hmem]⟩
      · exact ⟨l', by simpa [hkg] using hl', hmem⟩
  · rcases eq_or_ne k g with rfl | hkg
    · obtain rfl : l ++ [r] = l' := by simpa using hl
      rcases eq_or_ne q r with rfl | hqr
      · simp
      · have hql : q ∈ l := by simpa [hqr] using hq
        simpa [hqr] using h.back k l hg q hql
    · have hback := h.back k l' (by simpa [hkg] using hl) q hq
      have hqr : q ≠ r := by
        rintro rfl
        simp [hr] at hback
      simpa [hqr] using hback
  · rcases eq_or_ne k g with rfl | hkg
    · obtain rfl : l ++ [r] = l' := by simpa using hl
      exact List.nodup_append.2 ⟨h.nodup k l hg, List.nodup_singleton r, fun a ha b hb hab => by
        obtain rfl := List.mem_singleton.1 hb
        exact hrl (hab ▸ ha)⟩
    · exact h.nodup k l' (by simpa [hkg] using hl)

/-- The port goes, with its place in the list. -/
theorem drop (hr : G r = some (some g)) (hg : M g = some l) :
    Linked (update G r none) (update M g (some (l.erase r))) := by
  have hnd := h.nodup g l hg
  refine ⟨fun q k hq => ?_, fun k l' hl q hq => ?_, fun k l' hl => ?_⟩
  · have hqr : q ≠ r := by
      rintro rfl
      simp at hq
    obtain ⟨l', hl', hmem⟩ := h.member q k (by simpa [hqr] using hq)
    rcases eq_or_ne k g with rfl | hkg
    · obtain rfl : l = l' := Option.some.inj (hg.symm.trans hl')
      exact ⟨l.erase r, by simp, (List.mem_erase_of_ne hqr).2 hmem⟩
    · exact ⟨l', by simpa [hkg] using hl', hmem⟩
  · rcases eq_or_ne k g with rfl | hkg
    · obtain rfl : l.erase r = l' := by simpa using hl
      obtain ⟨hqr, hql⟩ := hnd.mem_erase_iff.1 hq
      simpa [hqr] using h.back k l hg q hql
    · have hback := h.back k l' (by simpa [hkg] using hl) q hq
      have hqr : q ≠ r := by
        rintro rfl
        rw [hr] at hback
        exact hkg (by simpa using hback.symm)
      simpa [hqr] using hback
  · rcases eq_or_ne k g with rfl | hkg
    · obtain rfl : l.erase r = l' := by simpa using hl
      exact hnd.erase r
    · exact h.nodup k l' (by simpa [hkg] using hl)

/-- The group goes, and its ports are in none. -/
theorem dissolve (hg : M g = some l) :
    Linked (fun r => if r ∈ l then some none else G r) (update M g none) := by
  refine ⟨fun r k hr => ?_, fun k l' hl r hr => ?_, fun k l' hl => ?_⟩
  · have hrl : r ∉ l := fun hmem => by simp [hmem] at hr
    obtain ⟨l', hl', hmem⟩ := h.member r k (by simpa [hrl] using hr)
    have hkg : k ≠ g := by
      rintro rfl
      exact hrl (Option.some.inj (hg.symm.trans hl') ▸ hmem)
    exact ⟨l', by simpa [hkg] using hl', hmem⟩
  · have hkg : k ≠ g := by
      rintro rfl
      simp at hl
    have hback := h.back k l' (by simpa [hkg] using hl) r hr
    have hrl : r ∉ l := fun hmem => by
      rw [h.back g l hg r hmem] at hback
      exact hkg (by simpa using hback.symm)
    simpa [hrl] using hback
  · have hkg : k ≠ g := by
      rintro rfl
      simp at hl
    exact h.nodup k l' (by simpa [hkg] using hl)

end Linked

/-! ### The two sides in the heap -/

/-- The `gport` of a read port. -/
def Object.gport? : Object α → Option (Option ℕ)
  | .readPort rp => some rp.gport
  | _ => none

/-- The `rp_list` of a group. -/
def Object.members? : Object α → Option (List ℕ)
  | .portGroup pg => some pg.rpList
  | _ => none

@[simp] theorem Object.gport?_writePort (wp : WritePort α) :
    (Object.writePort wp).gport? = none := rfl

@[simp] theorem Object.gport?_readPort (rp : ReadPort α) :
    (Object.readPort rp).gport? = some rp.gport := rfl

@[simp] theorem Object.gport?_portGroup (pg : PortGroup) :
    (Object.portGroup pg : Object α).gport? = none := rfl

@[simp] theorem Object.members?_writePort (wp : WritePort α) :
    (Object.writePort wp).members? = none := rfl

@[simp] theorem Object.members?_readPort (rp : ReadPort α) :
    (Object.readPort rp).members? = none := rfl

@[simp] theorem Object.members?_portGroup (pg : PortGroup) :
    (Object.portGroup pg : Object α).members? = some pg.rpList := rfl

namespace Ports

def gport? (s : Ports α) (r : ℕ) : Option (Option ℕ) := (s.heap r).bind Object.gport?

def members? (s : Ports α) (g : ℕ) : Option (List ℕ) := (s.heap g).bind Object.members?

theorem set_gport? (s : Ports α) (h : ℕ) (o : Object α) :
    (s.set h o).gport? = update s.gport? h o.gport? := by
  funext r
  rcases eq_or_ne r h with rfl | hr
  · simp [gport?, set]
  · simp [gport?, set, hr]

theorem set_members? (s : Ports α) (h : ℕ) (o : Object α) :
    (s.set h o).members? = update s.members? h o.members? := by
  funext r
  rcases eq_or_ne r h with rfl | hr
  · simp [members?, set]
  · simp [members?, set, hr]

theorem free_gport? (s : Ports α) (h : ℕ) :
    (s.free h).gport? = update s.gport? h none := by
  funext r
  rcases eq_or_ne r h with rfl | hr
  · simp [gport?, free]
  · simp [gport?, free, hr]

theorem free_members? (s : Ports α) (h : ℕ) :
    (s.free h).members? = update s.members? h none := by
  funext r
  rcases eq_or_ne r h with rfl | hr
  · simp [members?, free]
  · simp [members?, free, hr]

/-- A group is no read port. -/
theorem gport?_of_members? {s : Ports α} {g : ℕ} {l : List ℕ} (hg : s.members? g = some l) :
    s.gport? g = none := by
  cases ho : s.heap g with
  | none => simp [gport?, ho]
  | some o => cases o <;> simp_all [gport?, members?]

/-- `s'` has the groups of `s`. -/
structure SameLinks (s s' : Ports α) : Prop where
  gport : s'.gport? = s.gport?
  members : s'.members? = s.members?
  lock : s'.threadLock = s.threadLock

namespace SameLinks

variable {s s₁ s₂ : Ports α}

theorem refl (s : Ports α) : SameLinks s s := ⟨rfl, rfl, rfl⟩

theorem trans (h₁ : SameLinks s s₁) (h₂ : SameLinks s₁ s₂) : SameLinks s s₂ :=
  ⟨h₂.gport.trans h₁.gport, h₂.members.trans h₁.members, h₂.lock.trans h₁.lock⟩

theorem of_heap (hh : s₁.heap = s.heap) (hl : s₁.threadLock = s.threadLock) : SameLinks s s₁ :=
  ⟨by funext r; simp [gport?, hh], by funext g; simp [members?, hh], hl⟩

/-- An object is replaced by one with the same links. -/
theorem set {h : ℕ} {o : Object α} (hG : o.gport? = s.gport? h) (hM : o.members? = s.members? h) :
    SameLinks s (s.set h o) :=
  ⟨by rw [set_gport?, hG, update_eq_self],
    by rw [set_members?, hM, update_eq_self], rfl⟩

theorem free {h : ℕ} (hG : s.gport? h = none) (hM : s.members? h = none) :
    SameLinks s (s.free h) :=
  ⟨by rw [free_gport?, ← hG, update_eq_self],
    by rw [free_members?, ← hM, update_eq_self], rfl⟩

end SameLinks

end Ports

/-! ### What the calls do to the links -/

section Calls

open Ports

variable {s s' : Ports α} {res : Result α}

theorem wakeOne_sameLinks (s : Ports α) (h : ℕ) (err : PortStatus) :
    SameLinks s (waitQueueWakeOne s h err).1 :=
  .of_heap (by simp) (by simp)

theorem wakeAll_sameLinks (s : Ports α) (h : ℕ) (err : PortStatus) :
    SameLinks s (waitQueueWakeAll s h err) := .of_heap rfl rfl

/-- A read port is written back with its `gport`. -/
theorem setRead_sameLinks {r : ℕ} {rp : ReadPort α} (hr : s.heap r = some (.readPort rp))
    (rp' : ReadPort α) (hg : rp'.gport = rp.gport) : SameLinks s (s.set r (.readPort rp')) :=
  .set (by simp [gport?, hr, hg]) (by simp [members?, hr])

/-- A write port is no part of the links. -/
theorem setWrite_sameLinks {w : ℕ} {wp : WritePort α}
    (hw : s.heap w = none ∨ ∃ wp₀, s.heap w = some (.writePort wp₀)) :
    SameLinks s (s.set w (.writePort wp)) := by
  rcases hw with hw | ⟨wp₀, hw⟩
  · exact .set (by simp [gport?, hw]) (by simp [members?, hw])
  · exact .set (by simp [gport?, hw]) (by simp [members?, hw])

theorem wakeReader_sameLinks {r : ℕ} {gport : Option ℕ} (h : wakeReader s r gport = some s') :
    SameLinks s s' := by
  unfold wakeReader at h
  split at h
  · cases h
    exact wakeOne_sameLinks s r .noError
  · split at h
    · split at h
      · cases h
        exact wakeOne_sameLinks s r .noError
      · cases h
        exact wakeOne_sameLinks s _ .noError
    · exact absurd h (by simp)

variable {pk : List α}

theorem writeReader_sameLinks {r : ℕ} {b : Bool}
    (h : writeReader s r pk = some (s', b)) : SameLinks s s' := by
  unfold writeReader at h
  split at h
  · rename_i rp hr
    split at h
    · obtain ⟨rfl, -⟩ := Prod.mk.inj (Option.some.inj h)
      exact .refl s
    · rename_i b' _
      obtain ⟨s₁, h₁, he⟩ := Option.map_eq_some_iff.1 h
      obtain ⟨rfl, -⟩ := Prod.mk.inj he
      exact (setRead_sameLinks hr { rp with buf := b' } rfl).trans (wakeReader_sameLinks h₁)
  · exact absurd h (by simp)

variable {rs : List ℕ}

theorem writeLoop_sameLinks {st st' : PortStatus}
    (h : writeLoop s pk st rs = some (s', st')) : SameLinks s s' := by
  induction rs generalizing s st with
  | nil =>
    obtain ⟨rfl, -⟩ := Prod.mk.inj (Option.some.inj h)
    exact .refl s
  | cons r rs ih =>
    obtain ⟨⟨s₁, b⟩, h₁, h₂⟩ := Option.bind_eq_some_iff.1 h
    exact (writeReader_sameLinks h₁).trans (ih h₂)

theorem portWrite_sameLinks {w : ℕ} (h : portWrite s w pk = some (s', res)) :
    SameLinks s s' := by
  unfold portWrite at h
  split at h
  · obtain ⟨rfl, -⟩ := Prod.mk.inj (Option.some.inj h)
    exact .refl s
  · split at h
    · exact absurd h (by simp)
    · rename_i wp hw
      split at h
      · obtain ⟨rfl, -⟩ := Prod.mk.inj (Option.some.inj h)
        exact .refl s
      · split at h
        · split at h
          · obtain ⟨rfl, -⟩ := Prod.mk.inj (Option.some.inj h)
            exact .refl s
          · obtain ⟨rfl, -⟩ := Prod.mk.inj (Option.some.inj h)
            exact setWrite_sameLinks (.inr ⟨wp, hw⟩)
        · obtain ⟨⟨s₁, st⟩, h₁, he⟩ := Option.map_eq_some_iff.1 h
          obtain ⟨rfl, -⟩ := Prod.mk.inj he
          exact writeLoop_sameLinks h₁
    · obtain ⟨rfl, -⟩ := Prod.mk.inj (Option.some.inj h)
      exact .refl s

theorem blockReader_sameLinks (s : Ports α) (h : ℕ) (t : Reader) :
    SameLinks s (blockReader s h t).1 := by
  unfold blockReader
  split
  · exact .refl s
  · exact .of_heap rfl rfl

variable {t : Reader}

theorem readGroup_sameLinks {g : ℕ} (h : readGroup s g t rs = some (s', res)) : SameLinks s s' := by
  induction rs with
  | nil =>
    obtain rfl : (blockReader s g t).1 = s' := congrArg Prod.fst (Option.some.inj h)
    exact blockReader_sameLinks s g t
  | cons r rs ih =>
    unfold readGroup at h
    split at h
    · rename_i rp hr
      split at h
      · obtain ⟨rfl, -⟩ := Prod.mk.inj (Option.some.inj h)
        exact setRead_sameLinks hr _ rfl
      · exact ih h
    · exact absurd h (by simp)

theorem readLocked_sameLinks {h : ℕ} (hs : readLocked s h t = some (s', res)) :
    SameLinks s s' := by
  unfold readLocked at hs
  split at hs
  · exact absurd hs (by simp)
  · rename_i rp hr
    obtain rfl : (readNoLock s h rp t).1 = s' := congrArg Prod.fst (Option.some.inj hs)
    unfold readNoLock
    split
    · exact setRead_sameLinks hr _ rfl
    · exact blockReader_sameLinks s h t
  · exact readGroup_sameLinks hs
  · obtain ⟨rfl, -⟩ := Prod.mk.inj (Option.some.inj hs)
    exact .refl s

theorem portRead_sameLinks {h : ℕ} (hs : portRead s h t = some (s', res)) :
    SameLinks s s' := by
  unfold portRead at hs
  split at hs
  · obtain ⟨rfl, -⟩ := Prod.mk.inj (Option.some.inj hs)
    exact .refl s
  · exact readLocked_sameLinks hs

theorem portResume_sameLinks {t : ℕ} (hs : portResume s t = some (s', res)) : SameLinks s s' := by
  unfold portResume at hs
  split at hs
  · exact absurd hs (by simp)
  · have hsame : ∀ w : Woken, SameLinks s
        { s with woken := s.woken.erase w, reading := s.reading.erase t } := fun _ =>
      .of_heap rfl rfl
    dsimp only at hs
    split at hs
    · exact (hsame _).trans (readLocked_sameLinks hs)
    · obtain ⟨rfl, -⟩ := Prod.mk.inj (Option.some.inj hs)
      exact hsame _

theorem portTimer_sameLinks {h t : ℕ} (hs : portTimer s h t = some (s', res)) :
    SameLinks s s' := by
  unfold portTimer at hs
  split at hs
  · exact absurd hs (by simp)
  · split at hs
    · exact absurd hs (by simp)
    · obtain ⟨rfl, -⟩ := Prod.mk.inj (Option.some.inj hs)
      exact .of_heap rfl rfl

theorem destroyLoop_sameLinks (hs : destroyLoop s rs = some s') :
    SameLinks s s' := by
  induction rs generalizing s with
  | nil =>
    obtain rfl := Option.some.inj hs
    exact .refl s
  | cons r rs ih =>
    unfold destroyLoop at hs
    split at hs
    · rename_i rp hr
      have hwake := wakeAll_sameLinks s r .cancelled
      dsimp only at hs
      split at hs
      · have hr₁ : (waitQueueWakeAll s r .cancelled).heap r = some (.readPort rp) := hr
        exact (hwake.trans (setRead_sameLinks hr₁ { rp with wport := none } rfl)).trans (ih hs)
      · rename_i g _
        split at hs
        · have hr₁ : (waitQueueWakeAll (waitQueueWakeAll s r .cancelled) g .cancelled).heap r
              = some (.readPort rp) := hr
          exact ((hwake.trans (wakeAll_sameLinks _ g .cancelled)).trans
            (setRead_sameLinks hr₁ { rp with wport := none } rfl)).trans (ih hs)
        · exact absurd hs (by simp)
    · exact absurd hs (by simp)

theorem portDestroy_sameLinks {w : ℕ} (hs : portDestroy s w = some (s', res)) :
    SameLinks s s' := by
  unfold portDestroy at hs
  split at hs
  · obtain ⟨rfl, -⟩ := Prod.mk.inj (Option.some.inj hs)
    exact .refl s
  · split at hs
    · exact absurd hs (by simp)
    · rename_i wp hw
      have hG : s.gport? w = none := by simp [gport?, hw]
      have hM : s.members? w = none := by simp [members?, hw]
      have hlist : SameLinks s { s with writePortList := s.writePortList.erase w } :=
        .of_heap rfl rfl
      split at hs
      · dsimp only at hs
        split at hs
        · obtain ⟨rfl, -⟩ := Prod.mk.inj (Option.some.inj hs)
          exact hlist.trans (.free hG hM)
        · obtain ⟨s₂, h₂, he⟩ := Option.map_eq_some_iff.1 hs
          obtain ⟨rfl, -⟩ := Prod.mk.inj he
          have hloop := hlist.trans (destroyLoop_sameLinks h₂)
          exact hloop.trans (.free (by rw [hloop.gport, hG]) (by rw [hloop.members, hM]))
      · obtain ⟨rfl, -⟩ := Prod.mk.inj (Option.some.inj hs)
        exact .refl s
    · obtain ⟨rfl, -⟩ := Prod.mk.inj (Option.some.inj hs)
      exact .refl s

theorem closeWport_sameLinks {r : ℕ} {rp : ReadPort α} (hs : closeWport s r rp = some s') :
    SameLinks s s' := by
  unfold closeWport at hs
  split at hs
  · cases hs
    exact .refl s
  · split at hs
    · rename_i wp hw
      split at hs
      · cases hs
        exact setWrite_sameLinks (.inr ⟨wp, hw⟩)
      · exact absurd hs (by simp)
    · exact absurd hs (by simp)

/-- `rp->gport = NULL` for a list of read ports. -/
theorem clearGport_links {l : List ℕ} (hl : ∀ r ∈ l, ∃ g, s.gport? r = some g) :
    (clearGport s l).gport? = (fun r => if r ∈ l then some none else s.gport? r) ∧
      (clearGport s l).members? = s.members? ∧ (clearGport s l).threadLock = s.threadLock := by
  induction l generalizing s with
  | nil => simp [clearGport]
  | cons r l ih =>
    obtain ⟨g, hg⟩ := hl r List.mem_cons_self
    obtain ⟨rp, hr⟩ : ∃ rp, s.heap r = some (.readPort rp) := by
      cases ho : s.heap r with
      | none => simp [gport?, ho] at hg
      | some o => cases o <;> simp_all [gport?]
    have hM : s.members? r = none := by simp [members?, hr]
    have hset : (s.set r (.readPort { rp with gport := none })).gport?
        = update s.gport? r (some none) := set_gport? ..
    have hset' : (s.set r (.readPort { rp with gport := none })).members? = s.members? := by
      rw [set_members?, ← update_eq_self r s.members?, hM]
      simp
    have hl' : ∀ q ∈ l, ∃ g,
        (s.set r (.readPort { rp with gport := none })).gport? q = some g := fun q hq => by
      rcases eq_or_ne q r with rfl | hqr
      · exact ⟨none, by simp [hset]⟩
      · simpa [hset, hqr] using hl q (List.mem_cons_of_mem _ hq)
    obtain ⟨ih₁, ih₂, ih₃⟩ := ih hl'
    rw [clearGport, hr]
    refine ⟨?_, ih₂.trans hset', ih₃⟩
    rw [ih₁, hset]
    funext q
    rcases eq_or_ne q r with rfl | hqr
    · simp
    · simp [hqr]

end Calls

/-! ### The invariant -/

/-- The two sides of every membership agree, and the lock is free. -/
structure GroupsOk (s : Ports α) : Prop where
  linked : Linked s.gport? s.members?
  unlocked : s.threadLock = false

namespace GroupsOk

open Ports

variable {s s' : Ports α} {res : Result α}

theorem same (h : GroupsOk s) (hs : SameLinks s s') : GroupsOk s' :=
  ⟨by rw [hs.gport, hs.members]; exact h.linked, hs.lock.trans h.unlocked⟩

theorem init : GroupsOk (portInit : Ports α) :=
  ⟨⟨fun _ _ h => by simp [gport?, portInit] at h, fun _ _ h => by simp [members?, portInit] at h,
    fun _ _ h => by simp [members?, portInit] at h⟩, rfl⟩

variable {name : List Char}

theorem create [Inhabited α] (h : GroupsOk s) {mode : ℕ} {wp : Option ℕ} {bufOk : Bool}
    (hf : s.Fresh wp) : GroupsOk (portCreate s name mode wp bufOk).1 := by
  unfold portCreate
  split
  · exact h
  · split
    · exact h
    · split
      · split <;> exact h
      · split
        · rename_i w _
          exact h.same ((setWrite_sameLinks (.inl hf.2)).trans (.of_heap rfl rfl))
        · exact h

variable {rp : ReadPort α}

/-- A new read port is in no group. -/
theorem setNew (h : GroupsOk s) {r : ℕ} (hr : s.heap r = none)
    (hg : rp.gport = none) : GroupsOk (s.set r (.readPort rp)) := by
  have hG : s.gport? r = none := by simp [gport?, hr]
  have hM : s.members? r = none := by simp [members?, hr]
  refine ⟨?_, h.unlocked⟩
  rw [set_gport?, set_members?, Object.members?_readPort, ← hM, update_eq_self]
  exact h.linked.set_unlinked (by simp [hG]) (by simp [hg])

theorem find_heap {w : ℕ} {wp : WritePort α}
    (hf : findPort s name = some (w, wp)) : s.heap w = some (.writePort wp) := by
  obtain ⟨a, -, ha⟩ := List.exists_of_findSome?_eq_some hf
  split at ha
  · rename_i wp' hw
    split at ha
    · cases ha
      exact hw
    · exact absurd ha (by simp)
  · exact absurd ha (by simp)

theorem opened [Inhabited α] (h : GroupsOk s) {ctx : ℕ} {rp : Option ℕ} {bufOk : Bool}
    (hf : s.Fresh rp) : GroupsOk (portOpen s name ctx rp bufOk).1 := by
  unfold portOpen
  split
  · rename_i r
    split
    · exact h
    · rename_i w wp hfind
      have hw := find_heap hfind
      have hwr : r ≠ w := by
        rintro rfl
        rw [hf.2] at hw
        exact absurd hw (by simp)
      have hset : ∀ wp' : WritePort α, (s.set w (.writePort wp')).heap r = none := fun wp' => by
        simpa [Ports.set, hwr] using hf.2
      split
      · exact (h.same (setWrite_sameLinks (.inr ⟨wp, hw⟩))).setNew (hset _) rfl
      · split
        · exact h
        · exact (h.same (setWrite_sameLinks (.inr ⟨wp, hw⟩))).setNew (hset _) rfl
  · exact h

/-- A read port that is in no group joins the group `g`. -/
theorem join_links {r g : ℕ} {l : List ℕ} (hr : s.heap r = some (.readPort rp))
    (hg : s.members? g = some l) :
    ((s.set r (.readPort { rp with gport := some g })).set g (.portGroup ⟨l ++ [r]⟩)).gport?
        = update s.gport? r (some (some g)) ∧
      ((s.set r (.readPort { rp with gport := some g })).set g (.portGroup ⟨l ++ [r]⟩)).members?
        = update s.members? g (some (l ++ [r])) := by
  have hM : s.members? r = none := by simp [members?, hr]
  have hgr : g ≠ r := by
    rintro rfl
    rw [hM] at hg
    exact absurd hg (by simp)
  have hGg := gport?_of_members? hg
  have hg₁ : (s.set r (.readPort { rp with gport := some g })).gport? g = none := by
    rw [set_gport?, update_of_ne hgr, hGg]
  have hm₁ : (s.set r (.readPort { rp with gport := some g })).members? = s.members? := by
    rw [set_members?, Object.members?_readPort, ← hM, update_eq_self]
  constructor
  · rw [set_gport? _ g, Object.gport?_portGroup, ← hg₁, update_eq_self, set_gport?]
    rfl
  · rw [set_members?, hm₁]
    rfl

variable (h : GroupsOk s)
include h

theorem join {r g : ℕ} {l : List ℕ}
    (hr : s.heap r = some (.readPort rp)) (hg : s.members? g = some l) (hn : rp.gport = none) :
    GroupsOk ((s.set r (.readPort { rp with gport := some g })).set g (.portGroup ⟨l ++ [r]⟩)) ∧
      ((s.set r (.readPort { rp with gport := some g })).set g
        (.portGroup ⟨l ++ [r]⟩)).members? g = some (l ++ [r]) := by
  have hG : s.gport? r = some none := by simp [gport?, hr, hn]
  obtain ⟨hgport, hmembers⟩ := join_links hr hg
  refine ⟨⟨?_, h.unlocked⟩, by rw [hmembers, update_self]⟩
  rw [hgport, hmembers]
  exact h.linked.add hG hg

/-- The group `g` is taken apart. -/
theorem dissolve {g : ℕ} {l : List ℕ} (hg : s.members? g = some l) :
    GroupsOk ((clearGport s l).free g) := by
  have hl : ∀ r ∈ l, ∃ k, s.gport? r = some k := fun r hr => ⟨_, h.linked.back g l hg r hr⟩
  obtain ⟨hG, hM, hlock⟩ := clearGport_links hl
  have hGg := gport?_of_members? hg
  have hgl : g ∉ l := fun hmem => by simpa [hGg] using h.linked.back g l hg g hmem
  refine ⟨?_, hlock.trans h.unlocked⟩
  have hg₁ : (clearGport s l).gport? g = none := by simp [hG, hgl, hGg]
  rw [free_gport?, ← hg₁, update_eq_self, free_members?, hG, hM]
  exact h.linked.dissolve hg

theorem groupLoop {g : ℕ} {done rs : List ℕ} {b : Bool}
    (hg : s.members? g = some done) (hs : Port.groupLoop s g done rs = some (s', b)) :
    if b then GroupsOk s' else GroupsOk (s'.free g) := by
  induction rs generalizing s done with
  | nil =>
    cases hs
    exact h
  | cons r rs ih =>
    unfold Port.groupLoop at hs
    split at hs
    · exact absurd hs (by simp)
    · rename_i rp hr
      split at hs
      · cases hs
        exact h.dissolve hg
      · rename_i hn
        obtain ⟨hjoin, hlist⟩ := h.join hr hg (by simpa using hn)
        exact ih hjoin hlist hs
    · cases hs
      exact h.dissolve hg

theorem group {ports : List ℕ} {pg : Option ℕ} (hf : s.Fresh pg)
    (hs : portGroup s ports pg = some (s', res)) : GroupsOk s' := by
  unfold portGroup at hs
  split at hs
  · obtain ⟨rfl, -⟩ := Prod.mk.inj (Option.some.inj hs)
    exact h
  · split at hs
    · obtain ⟨rfl, -⟩ := Prod.mk.inj (Option.some.inj hs)
      exact h
    · rename_i g
      have hG : s.gport? g = none := by simp [gport?, hf.2]
      have hM : s.members? g = none := by simp [members?, hf.2]
      have hnew : GroupsOk (s.set g (.portGroup ⟨[]⟩)) := by
        refine ⟨?_, h.unlocked⟩
        rw [set_gport?, Object.gport?_portGroup, ← hG, update_eq_self, set_members?]
        exact h.linked.newGroup hM
      have hlist : (s.set g (.portGroup ⟨[]⟩)).members? g = some [] := by
        rw [set_members?]
        simp
      obtain ⟨⟨s₁, b⟩, h₁, he⟩ := Option.map_eq_some_iff.1 hs
      have hloop := hnew.groupLoop hlist h₁
      cases b with
      | true =>
        obtain ⟨rfl, -⟩ := Prod.mk.inj he
        exact hloop
      | false =>
        obtain ⟨rfl, -⟩ := Prod.mk.inj he
        exact hloop

theorem groupAdd {g r : ℕ} (hs : portGroupAdd s g r = some (s', res)) :
    GroupsOk s' := by
  unfold portGroupAdd at hs
  split at hs
  · obtain ⟨rfl, -⟩ := Prod.mk.inj (Option.some.inj hs)
    exact h
  · split at hs
    · exact absurd hs (by simp)
    · rename_i pg hg
      split at hs
      · exact absurd hs (by simp)
      · rename_i rp hr
        split at hs
        · obtain ⟨rfl, -⟩ := Prod.mk.inj (Option.some.inj hs)
          exact h
        · rename_i hn
          split at hs
          · obtain ⟨rfl, -⟩ := Prod.mk.inj (Option.some.inj hs)
            exact h
          · have hlist : s.members? g = some pg.rpList := by simp [members?, hg]
            have hjoin := (h.join hr hlist (by simpa using hn)).1
            obtain ⟨rfl, -⟩ := Prod.mk.inj (Option.some.inj hs)
            split
            · exact hjoin
            · exact hjoin.same (wakeOne_sameLinks _ g .noError)
      · obtain ⟨rfl, -⟩ := Prod.mk.inj (Option.some.inj hs)
        exact h
    · obtain ⟨rfl, -⟩ := Prod.mk.inj (Option.some.inj hs)
      exact h

/-- `port_close` of a read port, from its second half on. -/
theorem closeRead {r : ℕ} (hr : s.gport? r = some rp.gport) (hs : closeGport s r rp = some s') :
    GroupsOk ((waitQueueWakeAll s' r .objectDestroyed).free r) := by
  unfold closeGport at hs
  split at hs
  · rename_i hn
    cases hs
    rw [hn] at hr
    have hM : s.members? r = none := by
      cases hm : s.members? r with
      | none => rfl
      | some l => simp [gport?_of_members? hm] at hr
    refine ⟨?_, h.unlocked⟩
    have hwake := wakeAll_sameLinks s r .objectDestroyed
    rw [free_gport?, free_members?, hwake.gport, hwake.members, ← hM, update_eq_self]
    exact h.linked.set_unlinked (by simp [hr]) (by simp)
  · rename_i g hn
    split at hs
    · rename_i pg hg
      split at hs
      · cases hs
        rw [hn] at hr
        have hlist : s.members? g = some pg.rpList := by simp [members?, hg]
        have hGg := gport?_of_members? hlist
        have hgr : r ≠ g := by
          rintro rfl
          simp [hGg] at hr
        have hM : s.members? r = none := by
          cases hm : s.members? r with
          | none => rfl
          | some l => simp [gport?_of_members? hm] at hr
        have hwake := wakeAll_sameLinks (s.set g (.portGroup ⟨pg.rpList.erase r⟩)) r
          .objectDestroyed
        have hM' : (s.set g (.portGroup ⟨pg.rpList.erase r⟩)).members? r = none := by
          rw [set_members?, update_of_ne hgr, hM]
        have hG' : (s.set g (.portGroup ⟨pg.rpList.erase r⟩)).gport? = s.gport? := by
          rw [set_gport?, Object.gport?_portGroup, ← hGg, update_eq_self]
        refine ⟨?_, h.unlocked⟩
        rw [free_gport?, free_members?, hwake.gport, hwake.members, hG', ← hM',
          update_eq_self, set_members?]
        exact h.linked.drop hr hlist
      · exact absurd hs (by simp)
    · exact absurd hs (by simp)

theorem close {p : ℕ} (hs : portClose s p = some (s', res)) : GroupsOk s' := by
  unfold portClose at hs
  split at hs
  · obtain ⟨rfl, -⟩ := Prod.mk.inj (Option.some.inj hs)
    exact h
  · split at hs
    · exact absurd hs (by simp)
    · rename_i rp hr
      obtain ⟨s₁, h₁, hs⟩ := Option.bind_eq_some_iff.1 hs
      obtain ⟨s₂, h₂, he⟩ := Option.map_eq_some_iff.1 hs
      obtain ⟨rfl, -⟩ := Prod.mk.inj he
      have hsame := closeWport_sameLinks h₁
      exact (h.same hsame).closeRead (by rw [hsame.gport]; simp [gport?, hr]) h₂
    · rename_i pg hg
      obtain ⟨rfl, -⟩ := Prod.mk.inj (Option.some.inj hs)
      have hwake := wakeAll_sameLinks s p .objectDestroyed
      exact (h.same hwake).dissolve (by rw [hwake.members]; simp [members?, hg])
    · rename_i wp hw
      split at hs
      · obtain ⟨rfl, -⟩ := Prod.mk.inj (Option.some.inj hs)
        exact h
      · obtain ⟨rfl, -⟩ := Prod.mk.inj (Option.some.inj hs)
        exact h.same (setWrite_sameLinks (.inr ⟨wp, hw⟩))

end GroupsOk

/-- The call takes no member out of its group with `port_group_remove`. -/
def Call.KeepsMembers (s : Ports α) : Call α → Prop
  | .groupRemove g r => r = 0 ∨ g = 0 ∨ s.gport? r ≠ some (some g)
  | _ => True

instance (s : Ports α) : ∀ c : Call α, Decidable (c.KeepsMembers s)
  | .groupRemove g r => inferInstanceAs (Decidable (r = 0 ∨ g = 0 ∨ s.gport? r ≠ some (some g)))
  | .create .. | .openPort .. | .group .. | .groupAdd .. | .write .. | .read .. | .resume ..
  | .timer .. | .destroy .. | .close .. => .isTrue trivial

section Step

open Ports

variable {s s' : Ports α} {res : Result α}

/-- A `port_group_remove` that is turned away changes nothing. -/
theorem portGroupRemove_keeps {g r : ℕ} (hk : (Call.groupRemove g r : Call α).KeepsMembers s)
    (hs : portGroupRemove s g r = some (s', res)) : s' = s := by
  unfold portGroupRemove at hs
  split at hs
  · exact (Prod.mk.inj (Option.some.inj hs)).1.symm
  · rename_i h0
    split at hs
    · exact absurd hs (by simp)
    · split at hs
      · exact absurd hs (by simp)
      · rename_i rp hr
        split at hs
        · exact (Prod.mk.inj (Option.some.inj hs)).1.symm
        · rename_i hne
          rcases hk with hk | hk | hk
          · exact absurd (.inl hk) h0
          · exact absurd (.inr hk) h0
          · exact absurd (by simpa [gport?, hr] using hne) hk
      · exact (Prod.mk.inj (Option.some.inj hs)).1.symm
    · exact (Prod.mk.inj (Option.some.inj hs)).1.symm

/-- **One call.**  The links stay right in both directions, unless it removes a port from a group. -/
theorem GroupsOk.step [Inhabited α] (h : GroupsOk s) {c : Call α} (hk : c.KeepsMembers s)
    (hs : portNext s c = some s') : GroupsOk s' := by
  obtain ⟨⟨s₁, res⟩, hs', rfl⟩ := Option.map_eq_some_iff.1 hs
  unfold portStep at hs'
  rw [if_neg (by simp [h.unlocked])] at hs'
  replace hs := hs'
  cases c with
  | create name mode wp bufOk =>
    dsimp only at hs
    split at hs
    · rename_i hf
      rw [← congrArg Prod.fst (Option.some.inj hs)]
      exact h.create hf
    · exact absurd hs (by simp)
  | openPort name ctx rp bufOk =>
    dsimp only at hs
    split at hs
    · rename_i hf
      rw [← congrArg Prod.fst (Option.some.inj hs)]
      exact h.opened hf
    · exact absurd hs (by simp)
  | group ports pg =>
    dsimp only at hs
    split at hs
    · rename_i hf
      exact h.group hf hs
    · exact absurd hs (by simp)
  | groupAdd g r => exact h.groupAdd hs
  | groupRemove g r => rwa [portGroupRemove_keeps hk hs]
  | write w pk => exact h.same (portWrite_sameLinks hs)
  | read p t =>
    dsimp only at hs
    split at hs
    · exact absurd hs (by simp)
    · exact h.same (portRead_sameLinks hs)
  | resume t => exact h.same (portResume_sameLinks hs)
  | timer p t => exact h.same (portTimer_sameLinks hs)
  | destroy w => exact h.same (portDestroy_sameLinks hs)
  | close p => exact h.close hs

end Step

/-! ### The property -/

/-- **Group membership.**  A live read port's `gport` is a live group exactly when
the port is once in its list, `NULL` exactly when it is in no live group's list;
the ports in the list of a live group are live; and no call has kept the thread
lock. -/
structure Membership (s : Ports α) : Prop where
  linked : ∀ r rp g pg, s.heap r = some (.readPort rp) → s.heap g = some (.portGroup pg) →
    (rp.gport = some g ↔ pg.rpList.count r = 1)
  dangling : ∀ r rp g, s.heap r = some (.readPort rp) → rp.gport = some g →
    ∃ pg, s.heap g = some (.portGroup pg)
  unlinked : ∀ r rp, s.heap r = some (.readPort rp) →
    (rp.gport = none ↔ ∀ g pg, s.heap g = some (.portGroup pg) → r ∉ pg.rpList)
  live : ∀ g pg, s.heap g = some (.portGroup pg) → ∀ r ∈ pg.rpList,
    ∃ rp, s.heap r = some (.readPort rp)
  unlocked : s.threadLock = false

section Membership

open Ports

variable {s s' : Ports α}

theorem Ports.members?_eq_some {g : ℕ} {l : List ℕ} :
    s.members? g = some l ↔ s.heap g = some (.portGroup ⟨l⟩) := by
  cases ho : s.heap g with
  | none => simp [members?, ho]
  | some o =>
    cases o with
    | writePort wp => simp [members?, ho]
    | readPort rp => simp [members?, ho]
    | portGroup pg => simp [members?, ho, PortGroup.ext_iff]

theorem Ports.gport?_eq_some {r : ℕ} {g : Option ℕ} :
    s.gport? r = some g ↔ ∃ rp, s.heap r = some (.readPort rp) ∧ rp.gport = g := by
  cases ho : s.heap r with
  | none => simp [gport?, ho]
  | some o => cases o <;> simp [gport?, ho]

theorem GroupsOk.membership (h : GroupsOk s) : Membership s where
  linked r rp g pg hr hg := by
    have hlist : s.members? g = some pg.rpList := Ports.members?_eq_some.2 hg
    constructor
    · intro hgp
      obtain ⟨l, hl, hmem⟩ := h.linked.member r g (gport?_eq_some.2 ⟨rp, hr, hgp⟩)
      obtain rfl := Option.some.inj (hlist.symm.trans hl)
      exact List.count_eq_one_of_mem (h.linked.nodup g _ hlist) hmem
    · intro hcount
      have hmem : r ∈ pg.rpList := List.count_pos_iff.1 (by omega)
      obtain ⟨rp', hr', hgp⟩ := gport?_eq_some.1 (h.linked.back g _ hlist r hmem)
      obtain rfl : rp = rp' := by simpa using hr.symm.trans hr'
      exact hgp
  dangling r rp g hr hgp := by
    obtain ⟨l, hl, -⟩ := h.linked.member r g (gport?_eq_some.2 ⟨rp, hr, hgp⟩)
    exact ⟨_, Ports.members?_eq_some.1 hl⟩
  unlinked r rp hr := by
    constructor
    · intro hn g pg hg hmem
      have hlist : s.members? g = some pg.rpList := Ports.members?_eq_some.2 hg
      obtain ⟨rp', hr', hgp⟩ := gport?_eq_some.1 (h.linked.back g _ hlist r hmem)
      obtain rfl : rp = rp' := by simpa using hr.symm.trans hr'
      simp [hn] at hgp
    · intro hall
      cases hgp : rp.gport with
      | none => rfl
      | some g =>
        obtain ⟨l, hl, hmem⟩ := h.linked.member r g (gport?_eq_some.2 ⟨rp, hr, hgp⟩)
        exact absurd hmem (hall g _ (Ports.members?_eq_some.1 hl))
  live g pg hg r hmem := by
    have hlist : s.members? g = some pg.rpList := Ports.members?_eq_some.2 hg
    obtain ⟨rp, hr, -⟩ := gport?_eq_some.1 (h.linked.back g _ hlist r hmem)
    exact ⟨rp, hr⟩
  unlocked := h.unlocked

/-- **`port_group_remove` of a member** takes it off the list and leaves its
`gport`. -/
theorem portGroupRemove_unlinks (h : GroupsOk s) {g r : ℕ}
    (hk : ¬ (Call.groupRemove g r : Call α).KeepsMembers s) {res : Result α}
    (hs : portGroupRemove s g r = some (s', res)) : ¬ Membership s' := by
  simp only [Call.KeepsMembers, not_or, not_not] at hk
  obtain ⟨hr0, hg0, hgp⟩ := hk
  obtain ⟨l, hl, hmem⟩ := h.linked.member r g hgp
  obtain ⟨rp, hr, hrg⟩ := gport?_eq_some.1 hgp
  have hg := Ports.members?_eq_some.1 hl
  have hgr : r ≠ g := by
    rintro rfl
    exact absurd (hr.symm.trans hg) (by simp)
  have he : s' = s.set g (.portGroup ⟨l.erase r⟩) := by
    simp only [portGroupRemove, hr0, hg0, or_self, if_false, hg, hr, hrg, ne_eq,
      not_true_eq_false, hmem, if_true, Option.some.injEq, Prod.mk.injEq] at hs
    exact hs.1.symm
  intro hm
  have hcount := (hm.linked r rp g ⟨l.erase r⟩ (by simpa [he, Ports.set, hgr] using hr)
    (by simp [he, Ports.set])).1 hrg
  have hnot : r ∉ l.erase r := fun hin =>
    ((h.linked.nodup g l hl).mem_erase_iff.1 hin).1 rfl
  rw [List.count_eq_zero_of_not_mem hnot] at hcount
  exact absurd hcount (by decide)

variable [Inhabited α]

/-- **Membership is kept exactly by the runs that remove no member.** -/
theorem group_membership_iff (as : List (Call α)) (s : Ports α)
    (h : run portNext portInit as = some s) :
    Throughout portNext Membership portInit as ↔
      Along portNext (fun s c => c.KeepsMembers s) portInit as := by
  have hstep : ∀ (s : Ports α) c s', (Membership s → GroupsOk s) → Membership s →
      portNext s c = some s' →
      (Membership s' → GroupsOk s') ∧ (Membership s' ↔ c.KeepsMembers s) := by
    intro s c s' hok hm hs
    have h := hok hm
    by_cases hk : c.KeepsMembers s
    · have h' := h.step hk hs
      exact ⟨fun _ => h', fun _ => hk, fun _ => h'.membership⟩
    · have hnot : ¬ Membership s' := by
        cases c with
        | groupRemove g r =>
          obtain ⟨⟨s₁, res⟩, hs', rfl⟩ := Option.map_eq_some_iff.1 hs
          unfold portStep at hs'
          rw [if_neg (by simp [h.unlocked])] at hs'
          exact portGroupRemove_unlinks h hk hs'
        | _ => exact absurd trivial hk
      exact ⟨fun hm' => absurd hm' hnot, fun hm' => absurd hm' hnot, fun hk' => absurd hk' hk⟩
  have hinit : GroupsOk (portInit : Ports α) := .init
  exact throughout_iff_along hstep as _ s (fun _ => hinit) hinit.membership h

end Membership

/-- Two readers of one broadcast port, the second of which joins the group of the
first, leaves it by being closed, and is turned away by a `port_group_remove` from
a group it is not in. -/
def groupCalls : List (Call ℕ) :=
  [.create ['p'] portModeBroadcast (some 1) true, .openPort ['p'] 0 (some 2) true,
    .openPort ['p'] 0 (some 3) true, .group [2] (some 4), .group [3, 2] (some 5),
    .groupRemove 4 3, .groupAdd 4 3, .close 2, .close 4]

/-- In the end the group is closed, and port 3 is open and in no group. -/
theorem group_membership_two :
    ∃ s : Ports ℕ, run portNext portInit groupCalls = some s ∧ s.gport? 3 = some none ∧
      Throughout portNext Membership portInit groupCalls :=
  ⟨_, rfl, rfl, (group_membership_iff groupCalls _ rfl).2 (by decide)⟩

/-- **A removed port.**  After `port_group_remove` the list of group 3 is empty and
the `gport` of port 2 is still 3, and a second `port_group_remove` returns with the
lock held. -/
theorem group_membership_lost :
    (∃ s : Ports ℕ, run portNext portInit
        [.create ['p'] portModeUnicast (some 1) true, .openPort ['p'] 0 (some 2) true,
          .group [2] (some 3), .groupRemove 3 2] = some s ∧ ¬ Membership s) ∧
      ∃ s : Ports ℕ, run portNext portInit
        [.create ['p'] portModeUnicast (some 1) true, .openPort ['p'] 0 (some 2) true,
          .group [2] (some 3), .groupRemove 3 2, .groupRemove 3 2] = some s ∧
        s.threadLock = true := by
  refine ⟨⟨_, rfl, fun h => ?_⟩, _, rfl, rfl⟩
  have := (h.linked 2 _ 3 ⟨[]⟩ rfl rfl).1 rfl
  exact absurd this (by decide)

end Port
end LittleKernel
