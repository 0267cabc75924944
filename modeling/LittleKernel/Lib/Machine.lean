/-
# Runs of a partial step function

A system is a partial function `step` from a state and an input to the next
state, undefined where the system does not take the step: a caller that sleeps,
an assertion that stops the machine, a precondition of the call.  Whatever the
environment chooses (the thread that runs next, the page an allocator hands
out) is part of the input, so a run is a list of inputs.

`run_inv` is the invariant rule, `run_inv_along` the same rule for runs whose
steps all meet a side condition, `throughout_iff_along` says which runs keep a
property that some steps lose, and `trace_refines` transports a whole run,
outputs included, along an abstraction function and `trace_simulates` along a relation;
`trace_accepted` compares runs whose steps meet obligations with a specification of inputs
and outputs, and `trace_sound` does so where a step that meets its obligation may still be
undefined.
-/

import Mathlib.Data.List.Basic

namespace Machine

variable {σ ι ω τ : Type*}

/-- The state after the inputs `as`, `none` when one of the steps is undefined. -/
def run (step : σ → ι → Option σ) : σ → List ι → Option σ
  | s, [] => some s
  | s, a :: as => (step s a).bind fun s' => run step s' as

/-- Every step of the run of `as` from `s` meets `ok` in the state it is taken. -/
def Along (step : σ → ι → Option σ) (ok : σ → ι → Prop) : σ → List ι → Prop
  | _, [] => True
  | s, a :: as => ok s a ∧ ∀ s', step s a = some s' → Along step ok s' as

instance decidableAlong {step : σ → ι → Option σ} {ok : σ → ι → Prop}
    [∀ s a, Decidable (ok s a)] : ∀ s as, Decidable (Along step ok s as)
  | _, [] => .isTrue trivial
  | s, a :: as =>
    have : ∀ s', Decidable (Along step ok s' as) := fun s' => decidableAlong s' as
    decidable_of_iff (ok s a ∧ ∀ s' ∈ step s a, Along step ok s' as) Iff.rfl

/-- `P` holds in every state the run of `as` from `s` visits, `s` included. -/
def Throughout (step : σ → ι → Option σ) (P : σ → Prop) : σ → List ι → Prop
  | s, [] => P s
  | s, a :: as => P s ∧ ∀ s', step s a = some s' → Throughout step P s' as

instance decidableThroughout {step : σ → ι → Option σ} {P : σ → Prop} [DecidablePred P] :
    ∀ s as, Decidable (Throughout step P s as)
  | s, [] => inferInstanceAs (Decidable (P s))
  | s, a :: as =>
    have : ∀ s', Decidable (Throughout step P s' as) := fun s' => decidableThroughout s' as
    decidable_of_iff (P s ∧ ∀ s' ∈ step s a, Throughout step P s' as) Iff.rfl

section Runs

variable {step : σ → ι → Option σ} {ok : σ → ι → Prop} {Inv P : σ → Prop}

theorem along_of_forall {ok : ι → Prop} :
    ∀ {as : List ι} (s : σ), (∀ a ∈ as, ok a) → Along step (fun _ => ok) s as
  | [], _, _ => trivial
  | a :: _, _, h =>
    ⟨h a List.mem_cons_self, fun s' _ => along_of_forall s' fun b hb => h b (.tail a hb)⟩

theorem Along.concat {a : ι} :
    ∀ {as : List ι} {s : σ}, Along step ok s as → (∀ s', run step s as = some s' → ok s' a) →
      Along step ok s (as ++ [a])
  | [], s, _, ha => ⟨ha s rfl, fun _ _ => trivial⟩
  | b :: as, s, h, ha =>
    ⟨h.1, fun s' hs => (h.2 s' hs).concat fun s'' hr => ha s'' (by simp [run, hs, hr])⟩

theorem run_cons_eq_some {s s'' : σ} {a : ι} {as : List ι} :
    run step s (a :: as) = some s'' ↔ ∃ s', step s a = some s' ∧ run step s' as = some s'' := by
  simp [run, Option.bind_eq_some_iff]

/-- A step function that is defined everywhere takes every run. -/
theorem run_total (hstep : ∀ s a, ∃ s', step s a = some s') :
    ∀ (as : List ι) (s : σ), ∃ s', run step s as = some s'
  | [], s => ⟨s, rfl⟩
  | a :: as, s => by
      obtain ⟨s₁, h₁⟩ := hstep s a
      obtain ⟨s₂, h₂⟩ := run_total hstep as s₁
      exact ⟨s₂, run_cons_eq_some.2 ⟨s₁, h₁, h₂⟩⟩

/-- **The invariant rule under a side condition.**  What every step that meets
`ok` preserves holds at the end of every run whose steps all meet `ok`. -/
theorem run_inv_along (hstep : ∀ s a s', Inv s → ok s a → step s a = some s' → Inv s') :
    ∀ (as : List ι) (s s' : σ), Inv s → Along step ok s as → run step s as = some s' → Inv s'
  | [], s, s', hs, _, h => Option.some.inj h ▸ hs
  | a :: as, s, s'', hs, hok, h => by
      obtain ⟨s', h₁, h₂⟩ := run_cons_eq_some.1 h
      exact run_inv_along hstep as s' s'' (hstep s a s' hs hok.1 h₁) (hok.2 s' h₁) h₂

/-- **The invariant rule.** -/
theorem run_inv (hstep : ∀ s a s', Inv s → step s a = some s' → Inv s') (as : List ι) (s s' : σ)
    (hs : Inv s) (h : run step s as = some s') : Inv s' := by
  have hok : ∀ (as : List ι) (s : σ), Along step (fun _ _ => True) s as := by
    intro as
    induction as with
    | nil => exact fun _ => trivial
    | cons a as ih => exact fun _ => ⟨trivial, fun s' _ => ih s'⟩
  exact run_inv_along (fun s a s' hs _ h => hstep s a s' hs h) as s s' hs (hok as s) h

/-- **The invariant rule, for every state on the way**, of a run with no side condition. -/
theorem throughout_inv (hstep : ∀ s a s', Inv s → step s a = some s' → Inv s') :
    ∀ (as : List ι) (s : σ), Inv s → Throughout step Inv s as
  | [], _, hs => hs
  | a :: as, s, hs => ⟨hs, fun s' h => throughout_inv hstep as s' (hstep s a s' hs h)⟩

/-- Two conditions on a run, one on its states and one on its steps, as one. -/
theorem Throughout.along :
    ∀ {as : List ι} {s : σ}, Throughout step P s as → Along step ok s as →
      Along step (fun s a => P s ∧ ok s a) s as
  | [], _, _, _ => trivial
  | _ :: _, _, hP, hok => ⟨⟨hP.1, hok.1⟩, fun s' h => (hP.2 s' h).along (hok.2 s' h)⟩

/-- What is true of every state a run comes to allows every step it takes. -/
theorem Throughout.along_of (himp : ∀ s a, P s → ok s a) :
    ∀ {as : List ι} {s : σ}, Throughout step P s as → Along step ok s as
  | [], _, _ => trivial
  | a :: _, s, h => ⟨himp s a h.1, fun s' hs => (h.2 s' hs).along_of himp⟩

/-- **The invariant rule, for every state on the way.** -/
theorem Along.throughout (hstep : ∀ s a s', Inv s → ok s a → step s a = some s' → Inv s') :
    ∀ {as : List ι} {s : σ}, Along step ok s as → Inv s → Throughout step Inv s as
  | [], _, _, hs => hs
  | a :: _, s, hok, hs =>
    ⟨hs, fun s' h => (hok.2 s' h).throughout hstep (hstep s a s' hs hok.1 h)⟩

theorem Along.and {ok' : σ → ι → Prop} :
    ∀ {as : List ι} {s : σ}, Along step ok s as → Along step ok' s as →
      Along step (fun s a => ok s a ∧ ok' s a) s as
  | [], _, _, _ => trivial
  | _ :: _, _, h, h' => ⟨⟨h.1, h'.1⟩, fun s' hs => (h.2 s' hs).and (h'.2 s' hs)⟩

theorem Along.imp {ok' : σ → ι → Prop}
    (himp : ∀ s a, ok s a → ok' s a) :
    ∀ {as : List ι} {s : σ}, Along step ok s as → Along step ok' s as
  | [], _, _ => trivial
  | _ :: _, _, hok => ⟨himp _ _ hok.1, fun s' h => (hok.2 s' h).imp himp⟩

/-- **Progress.**  A run none of whose steps is undefined under the invariant is defined. -/
theorem Along.run_isSome (hstep : ∀ s a, Inv s → ok s a → ∃ s', step s a = some s' ∧ Inv s') :
    ∀ {as : List ι} {s : σ}, Along step ok s as → Inv s → ∃ s', run step s as = some s'
  | [], s, _, _ => ⟨s, rfl⟩
  | a :: _, s, hok, hs => by
      obtain ⟨s₁, h₁, hs₁⟩ := hstep s a hs hok.1
      obtain ⟨s₂, h₂⟩ := (hok.2 s₁ h₁).run_isSome hstep hs₁
      exact ⟨s₂, run_cons_eq_some.2 ⟨s₁, h₁, h₂⟩⟩

/-- What holds throughout a run holds where it starts. -/
theorem Throughout.here {s : σ} :
    ∀ {as : List ι}, Throughout step P s as → P s
  | [], h => h
  | _ :: _, h => h.1

/-- What holds throughout a run holds throughout the rest of it. -/
theorem Throughout.after {bs : List ι} {s' : σ} :
    ∀ {as : List ι} {s : σ}, Throughout step P s (as ++ bs) → run step s as = some s' →
      Throughout step P s' bs
  | [], _, h, hr => Option.some.inj hr ▸ h
  | _ :: _, _, h, hr => by
      obtain ⟨s₁, h₁, h₂⟩ := run_cons_eq_some.1 hr
      exact (h.2 s₁ h₁).after h₂

/-- What holds throughout a run holds where it ends. -/
theorem Throughout.last {as : List ι} {s s' : σ}
    (h : Throughout step P s as) (hr : run step s as = some s') : P s' := by
  rw [← List.append_nil as] at h
  exact (h.after hr).here

theorem Throughout.imp {Q : σ → Prop} (himp : ∀ s, P s → Q s) :
    ∀ {as : List ι} {s : σ}, Throughout step P s as → Throughout step Q s as
  | [], s, hP => himp s hP
  | _ :: _, s, hP => ⟨himp s hP.1, fun s' h => (hP.2 s' h).imp himp⟩

/-- **Where a property is lost.**  If, under an invariant, a step from a state
with `P` keeps `P` exactly when it meets `ok`, then a run has `P` throughout
exactly when all its steps meet `ok`. -/
theorem throughout_iff_along
    (hstep : ∀ s a s', Inv s → P s → step s a = some s' → Inv s' ∧ (P s' ↔ ok s a)) :
    ∀ (as : List ι) (s s' : σ), Inv s → P s → run step s as = some s' →
      (Throughout step P s as ↔ Along step ok s as)
  | [], _, _, _, hP, _ => ⟨fun _ => trivial, fun _ => hP⟩
  | a :: as, s, s'', hs, hP, h => by
      obtain ⟨s', h₁, h₂⟩ := run_cons_eq_some.1 h
      obtain ⟨hs', hiff⟩ := hstep s a s' hs hP h₁
      refine ⟨fun ⟨_, hall⟩ => ?_, fun ⟨hok, hall⟩ => ⟨hP, fun r hr => ?_⟩⟩
      · have hP' : P s' := (hall s' h₁).here
        refine ⟨hiff.1 hP', fun r hr => ?_⟩
        obtain rfl : s' = r := Option.some.inj (h₁.symm.trans hr)
        exact (throughout_iff_along hstep as s' s'' hs' hP' h₂).1 (hall s' h₁)
      · obtain rfl : s' = r := Option.some.inj (h₁.symm.trans hr)
        exact (throughout_iff_along hstep as s' s'' hs' (hiff.2 hok) h₂).2 (hall s' h₁)

end Runs

/-- The state after the inputs `as` together with the outputs of the steps. -/
def trace (step : σ → ι → Option (σ × ω)) : σ → List ι → Option (σ × List ω)
  | s, [] => some (s, [])
  | s, a :: as => (step s a).bind fun p => (trace step p.1 as).map fun q => (q.1, p.2 :: q.2)

variable {step : σ → ι → Option (σ × ω)}

/-- **Runs refine when steps do.**  If under the invariant every input `a` with
`ok a` takes the concrete step to the abstract one along `f`, outputs and
undefinedness included, then so does every list of such inputs, and the
invariant holds where the run ends. -/
theorem trace_refines {astep : τ → ι → Option (τ × ω)}
    (Inv : σ → Prop) (f : σ → τ) (ok : ι → Prop)
    (hstep : ∀ s a, Inv s → ok a → (step s a).map (Prod.map f id) = astep (f s) a)
    (hinv : ∀ s a s' o, Inv s → ok a → step s a = some (s', o) → Inv s') :
    ∀ (as : List ι) (s : σ), Inv s → (∀ a ∈ as, ok a) →
      (trace step s as).map (Prod.map f id) = trace astep (f s) as ∧
        ∀ s' os, trace step s as = some (s', os) → Inv s'
  | [], s, hs, _ => ⟨rfl, fun s' os h => by
      obtain ⟨rfl, -⟩ := Prod.mk.inj (Option.some.inj h)
      exact hs⟩
  | a :: as, s, hs, hok => by
      have ha := hstep s a hs (hok a List.mem_cons_self)
      cases h : step s a with
      | none => simp [trace, h, ← ha]
      | some p =>
        obtain ⟨ih₁, ih₂⟩ := trace_refines Inv f ok hstep hinv as p.1
          (hinv s a p.1 p.2 hs (hok a List.mem_cons_self) h)
          fun b hb => hok b (List.mem_cons_of_mem _ hb)
        rw [h, Option.map_some] at ha
        refine ⟨?_, fun s' os h' => ?_⟩
        · simp only [trace, h, ← ha, Option.bind_some, Prod.map_fst, ← ih₁, Option.map_map]
          rfl
        · simp only [trace, h, Option.bind_some, Option.map_eq_some_iff] at h'
          obtain ⟨q, hq, hq'⟩ := h'
          obtain ⟨rfl, -⟩ := Prod.mk.inj hq'
          exact ih₂ q.1 q.2 hq

/-- **Forward simulation.**  If related states answer every input that meets `ok` alike and
stay related, then they answer every list of such inputs alike. -/
theorem trace_simulates {astep : τ → ι → Option (τ × ω)}
    {R : σ → τ → Prop} {ok : τ → ι → Prop}
    (hstep : ∀ s t a, R s t → ok t a →
      ∃ s' t' o, step s a = some (s', o) ∧ astep t a = some (t', o) ∧ R s' t') :
    ∀ (as : List ι) (s : σ) (t : τ), R s t →
      Along (fun t a => (astep t a).map Prod.fst) ok t as →
      ∃ s' t' os, trace step s as = some (s', os) ∧ trace astep t as = some (t', os) ∧ R s' t'
  | [], s, t, hR, _ => ⟨s, t, [], rfl, rfl, hR⟩
  | a :: as, s, t, hR, hok => by
      obtain ⟨s₁, t₁, o, hs, ht, hR₁⟩ := hstep s t a hR hok.1
      obtain ⟨s₂, t₂, os, hs₂, ht₂, hR₂⟩ :=
        trace_simulates hstep as s₁ t₁ hR₁ (hok.2 t₁ (by simp [ht]))
      exact ⟨s₂, t₂, o :: os, by simp [trace, hs, hs₂], by simp [trace, ht, ht₂], hR₂⟩

/-- The inputs and outputs that a specification allows from `t` to `t'`. -/
inductive Accepts (spec : τ → ι → ω → τ → Prop) : τ → List ι → List ω → τ → Prop
  | nil (t : τ) : Accepts spec t [] [] t
  | cons {t t' t'' : τ} {a : ι} {o : ω} {as : List ι} {os : List ω} (h : spec t a o t')
      (h' : Accepts spec t' as os t'') : Accepts spec t (a :: as) (o :: os) t''

/-- **Simulation under obligations.**  If under the invariant every step that meets
its obligation `ok` is defined and allowed by the specification along `f`, then so is
every run whose steps meet theirs. -/
theorem trace_accepted {spec : τ → ι → ω → τ → Prop}
    {Inv : σ → Prop} {f : σ → τ} {ok : σ → ι → Prop}
    (hstep : ∀ s a, Inv s → ok s a →
      ∃ s' o, step s a = some (s', o) ∧ spec (f s) a o (f s') ∧ Inv s') :
    ∀ (as : List ι) (s : σ), Inv s → Along (fun s a => (step s a).map Prod.fst) ok s as →
      ∃ s' os, trace step s as = some (s', os) ∧ Accepts spec (f s) as os (f s') ∧ Inv s'
  | [], s, hs, _ => ⟨s, [], rfl, .nil _, hs⟩
  | a :: as, s, hs, hok => by
      obtain ⟨s₁, o, h₁, ha₁, hs₁⟩ := hstep s a hs hok.1
      obtain ⟨s₂, os, h₂, ha₂, hs₂⟩ :=
        trace_accepted hstep as s₁ hs₁ (hok.2 s₁ (by simp [h₁]))
      exact ⟨s₂, o :: os, by simp [trace, h₁, h₂], .cons ha₁ ha₂, hs₂⟩

theorem trace_cons_eq_some {s s'' : σ} {a : ι} {as : List ι} {os : List ω} :
    trace step s (a :: as) = some (s'', os) ↔
      ∃ s' o os', step s a = some (s', o) ∧ trace step s' as = some (s'', os') ∧ os = o :: os' := by
  simp only [trace, Option.bind_eq_some_iff, Option.map_eq_some_iff, Prod.mk.injEq, Prod.exists]
  constructor
  · rintro ⟨s', o, h, t, os', ht, rfl, rfl⟩
    exact ⟨s', o, os', h, ht, rfl⟩
  · rintro ⟨s', o, os', h, ht, rfl⟩
    exact ⟨s', o, h, s'', os', ht, rfl, rfl⟩

/-- **Soundness under obligations.**  If under the invariant every defined step that meets
its obligation is allowed by the specification along `f`, then so is every defined run
whose steps meet theirs. -/
theorem trace_sound {spec : τ → ι → ω → τ → Prop}
    {Inv : σ → Prop} {f : σ → τ} {ok : σ → ι → Prop}
    (hstep : ∀ s a s' o, Inv s → ok s a → step s a = some (s', o) →
      spec (f s) a o (f s') ∧ Inv s') :
    ∀ (as : List ι) (s s' : σ) (os : List ω), Inv s →
      Along (fun s a => (step s a).map Prod.fst) ok s as → trace step s as = some (s', os) →
      Accepts spec (f s) as os (f s') ∧ Inv s'
  | [], s, s', os, hs, _, h => by
      cases h
      exact ⟨.nil _, hs⟩
  | a :: as, s, s'', os, hs, hok, h => by
      obtain ⟨s', o, os', h₁, h₂, rfl⟩ := trace_cons_eq_some.1 h
      obtain ⟨ha, hs'⟩ := hstep s a s' o hs hok.1 h₁
      obtain ⟨has, hs''⟩ :=
        trace_sound hstep as s' s'' os' hs' (hok.2 s' (by simp [h₁])) h₂
      exact ⟨.cons ha has, hs''⟩

end Machine
