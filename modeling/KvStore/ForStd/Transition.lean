import Mathlib.Tactic.TypeStar

/-!
# Runs of a labelled transition system

`Run step ok s t` says that `t` is reached from `s` by steps each of which meets the
condition `ok`, a relation between the state before the step and its label.
`Passes step s states t` is a run together with the states that it passes through, and
`Emits step emit s events t` a run together with the events that its steps emit: what can be
seen of it from outside. A simulation carries the events over to another system
(`Emits.simulate`).
-/

variable {σ κ : Type*} {step : σ → κ → σ → Prop} {ok : σ → κ → Prop}

/-- A run whose steps all meet the condition `ok`. -/
inductive Run (step : σ → κ → σ → Prop) (ok : σ → κ → Prop) (s : σ) : σ → Prop where
  | refl : Run step ok s s
  | tail {t u : σ} (label : κ) (run : Run step ok s t) (hok : ok t label)
      (hstep : step t label u) : Run step ok s u

namespace Run

/-- What holds at the start and is kept by every step that meets the condition holds at the
    end. -/
theorem invariant {Inv : σ → Prop} {s t : σ} (h : Run step ok s t) (hstart : Inv s)
    (hkeep : ∀ {t label u}, Inv t → ok t label → step t label u → Inv u) : Inv t := by
  induction h with
  | refl => exact hstart
  | tail label _ hok hstep ih => exact hkeep ih hok hstep

/-- A run is a run of any system that has its steps. -/
theorem mono {step' : σ → κ → σ → Prop} {s t : σ} (h : Run step ok s t)
    (hstep : ∀ {t label u}, step t label u → step' t label u) : Run step' ok s t := by
  induction h with
  | refl => exact .refl
  | tail label _ hok hlast ih => exact .tail label ih hok (hstep hlast)

/-- A run meets every condition that is weaker in the states that runs reach. -/
theorem weaken {ok' : σ → κ → Prop} {s t : σ} (h : Run step ok s t)
    (hok : ∀ {t label}, Run step ok s t → ok t label → ok' t label) : Run step ok' s t := by
  induction h with
  | refl => exact .refl
  | tail label run hlast hstep ih => exact .tail label ih (hok run hlast) hstep

/-- Runs one after another. -/
theorem trans {s t u : σ} (h : Run step ok s t) (h' : Run step ok t u) : Run step ok s u := by
  induction h' with
  | refl => exact h
  | tail label _ hok hstep ih => exact .tail label ih hok hstep

/-- The run of a partial function that makes a step for each of the labels. -/
theorem of_foldlM {next : σ → κ → Option σ} [∀ s label, Decidable (ok s label)]
    {labels : List κ} {s t : σ}
    (h : labels.foldlM (fun s label => if ok s label then next s label else none) s = some t) :
    Run (fun s label t => next s label = some t) ok s t := by
  have hrun : ∀ {r s}, Run (fun s label t => next s label = some t) ok r s →
      labels.foldlM (fun s label => if ok s label then next s label else none) s = some t →
      Run (fun s label t => next s label = some t) ok r t := by
    clear h
    induction labels with
    | nil =>
      intro r s hrun hlabels
      exact Option.some.inj hlabels ▸ hrun
    | cons label labels ih =>
      intro r s hrun hlabels
      rw [List.foldlM_cons, Option.bind_eq_bind, Option.bind_eq_some_iff] at hlabels
      obtain ⟨u, hu, hlabels⟩ := hlabels
      obtain ⟨hok, hstep⟩ := Option.ite_none_right_eq_some.mp hu
      exact ih (.tail label hrun hok hstep) hlabels
  exact hrun .refl h

/-- A run that has been computed, and a property of its end. -/
theorem exists_of_any {next : σ → κ → Option σ} [∀ s label, Decidable (ok s label)]
    {labels : List κ} {s : σ} {p : σ → Bool}
    (h : (labels.foldlM (fun s label => if ok s label then next s label else none) s).any p) :
    ∃ t, Run (fun s label t => next s label = some t) ok s t ∧ p t := by
  obtain ⟨t, ht, hp⟩ := (Option.any_eq_true _ _).mp h
  exact ⟨t, .of_foldlM ht, hp⟩

end Run

/-- A run through exactly these states, the first and the last of them included, whose steps
    all meet the condition `ok`. -/
inductive Passes (step : σ → κ → σ → Prop) (ok : σ → κ → Prop) (s : σ) : List σ → σ → Prop where
  | refl : Passes step ok s [s] s
  | tail {states : List σ} {t u : σ} (label : κ) (run : Passes step ok s states t)
      (hok : ok t label) (hstep : step t label u) : Passes step ok s (states ++ [u]) u

namespace Passes

/-- The states of a run that has been computed, and a property of them. -/
theorem exists_of_any {next : σ → κ → Option σ} [∀ s label, Decidable (ok s label)]
    {labels : List κ} {s : σ} {p : List σ × σ → Bool}
    (h : (labels.foldlM (fun x label =>
        if ok x.2 label then (next x.2 label).map fun u => (x.1 ++ [u], u) else none)
      ([s], s)).any p) :
    ∃ states t, Passes (fun s label t => next s label = some t) ok s states t ∧
      p (states, t) := by
  -- the fold carries the states that it has passed
  have hpasses : ∀ {x : List σ × σ} {labels : List κ} {y : List σ × σ},
      Passes (fun s label t => next s label = some t) ok s x.1 x.2 →
      labels.foldlM (fun x label =>
        if ok x.2 label then (next x.2 label).map fun u => (x.1 ++ [u], u) else none) x =
          some y →
      Passes (fun s label t => next s label = some t) ok s y.1 y.2 := by
    intro x labels y hx hy
    induction labels generalizing x with
    | nil =>
      cases hy
      exact hx
    | cons label labels ih =>
      rw [List.foldlM_cons, Option.bind_eq_bind, Option.bind_eq_some_iff] at hy
      obtain ⟨z, hz, hy⟩ := hy
      obtain ⟨hok, hz⟩ := Option.ite_none_right_eq_some.mp hz
      obtain ⟨u, hu, rfl⟩ := Option.map_eq_some_iff.mp hz
      exact ih (.tail label hx hok hu) hy
  obtain ⟨⟨states, t⟩, hfold, hp⟩ := (Option.any_eq_true _ _).mp h
  exact ⟨states, t, hpasses .refl hfold, hp⟩

end Passes

/-- A run, with the events that its steps emit. -/
inductive Emits {ε : Type*} (step : σ → κ → σ → Prop) (emit : σ → κ → List ε) (s : σ) :
    List ε → σ → Prop where
  | refl : Emits step emit s [] s
  | tail {events : List ε} {t u : σ} (label : κ) (run : Emits step emit s events t)
      (hstep : step t label u) : Emits step emit s (events ++ emit t label) u

namespace Emits

variable {ε σ' κ' : Type*} {emit : σ → κ → List ε} {step' : σ' → κ' → σ' → Prop}
  {emit' : σ' → κ' → List ε}

/-- One step. -/
theorem single {s t : σ} {label : κ} (hstep : step s label t) :
    Emits step emit s (emit s label) t := by
  have hrun : Emits step emit s ([] ++ emit s label) t := .tail label .refl hstep
  rwa [List.nil_append] at hrun

/-- The run itself. -/
theorem run {s t : σ} {events : List ε} (h : Emits step emit s events t) :
    Run step (fun _ _ => True) s t := by
  induction h with
  | refl => exact .refl
  | tail label _ hstep ih => exact .tail label ih trivial hstep

/-- Runs one after another. -/
theorem trans {s t u : σ} {events more : List ε} (h : Emits step emit s events t)
    (h' : Emits step emit t more u) : Emits step emit s (events ++ more) u := by
  induction h' with
  | refl => rwa [List.append_nil]
  | tail label _ hstep ih =>
    rw [← List.append_assoc]
    exact .tail label ih hstep

/-- Forward simulation: if every step is answered by steps of the other system that emit the
    same events and keep a relation between the states, all events of a run are events of a
    run of the other system. -/
theorem simulate {R : σ → σ' → Prop} {s t : σ} {s' : σ'} {events : List ε}
    (h : Emits step emit s events t) (hstart : R s s')
    (hkeep : ∀ {t label u t'}, R t t' → step t label u →
      ∃ u', Emits step' emit' t' (emit t label) u' ∧ R u u') :
    ∃ t', Emits step' emit' s' events t' ∧ R t t' := by
  induction h with
  | refl => exact ⟨s', .refl, hstart⟩
  | tail label _ hstep ih =>
    obtain ⟨t', hrun, hR⟩ := ih
    obtain ⟨u', hmore, hR'⟩ := hkeep hR hstep
    exact ⟨u', hrun.trans hmore, hR'⟩

/-- The events of a run that has been computed, and a property of them. -/
theorem exists_of_any {next : σ → κ → Option σ} {labels : List κ} {s : σ}
    {p : List ε × σ → Bool}
    (h : (labels.foldlM (fun x label => (next x.2 label).map fun u =>
        (x.1 ++ emit x.2 label, u)) (([] : List ε), s)).any p) :
    ∃ events t, Emits (fun s label t => next s label = some t) emit s events t ∧
      p (events, t) := by
  -- the fold carries the events that it has emitted
  have hemits : ∀ {x : List ε × σ} {labels : List κ} {y : List ε × σ},
      Emits (fun s label t => next s label = some t) emit s x.1 x.2 →
      labels.foldlM (fun x label => (next x.2 label).map fun u =>
        (x.1 ++ emit x.2 label, u)) x = some y →
      Emits (fun s label t => next s label = some t) emit s y.1 y.2 := by
    intro x labels y hx hy
    induction labels generalizing x with
    | nil =>
      cases hy
      exact hx
    | cons label labels ih =>
      rw [List.foldlM_cons, Option.bind_eq_bind, Option.bind_eq_some_iff] at hy
      obtain ⟨z, hz, hy⟩ := hy
      obtain ⟨u, hu, rfl⟩ := Option.map_eq_some_iff.mp hz
      exact ih (.tail label hx hu) hy
  obtain ⟨⟨events, t⟩, hfold, hp⟩ := (Option.any_eq_true _ _).mp h
  exact ⟨events, t, hemits .refl hfold, hp⟩

end Emits
