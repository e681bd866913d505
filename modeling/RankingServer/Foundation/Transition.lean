import Mathlib

/-!
# Runs of labelled transition systems

A system is a partial function from states and events to states; an event that
is not enabled in a state has no successor there.  Every choice of a scheduler
or of the environment is part of the event, so that a run is determined by its
first state and its list of events.

Safety results come in two forms.  `Reachable` collects the states reached by
runs all of whose steps meet a guard; `Every` and `Throughout` speak about one
given run, and `throughout_iff_every` turns a statement about single steps into
an equivalence about whole runs.
-/

namespace Transition

variable {σ ε : Type*}

/-- The state after a list of events, when each of them is enabled. -/
def run (step : σ → ε → Option σ) : σ → List ε → Option σ
  | s, [] => some s
  | s, e :: es => (step s e).bind fun s' => run step s' es

/-- The guard that every step meets. -/
def unguarded : σ → ε → Prop := fun _ _ => True

/-- States reached from an initial state by steps that all meet `guard`. -/
inductive Reachable (step : σ → ε → Option σ) (init : σ → Prop)
    (guard : σ → ε → Prop) : σ → Prop
  | start {s : σ} : init s → Reachable step init guard s
  | next {s s' : σ} {e : ε} :
      Reachable step init guard s → guard s e → step s e = some s' →
        Reachable step init guard s'

/-- Every step taken along a run meets `guard` in the state it is taken from. -/
def Every (step : σ → ε → Option σ) (guard : σ → ε → Prop) :
    σ → List ε → Prop
  | _, [] => True
  | s, e :: es =>
      ∀ s', step s e = some s' → guard s e ∧ Every step guard s' es

/-- Every state visited along a run, the first one included, satisfies `P`. -/
def Throughout (step : σ → ε → Option σ) (P : σ → Prop) :
    σ → List ε → Prop
  | s, [] => P s
  | s, e :: es =>
      P s ∧ ∀ s', step s e = some s' → Throughout step P s' es

variable {step : σ → ε → Option σ} {init : σ → Prop} {guard : σ → ε → Prop}

@[simp] theorem run_nil (s : σ) : run step s [] = some s := rfl

@[simp] theorem run_cons (s : σ) (e : ε) (es : List ε) :
    run step s (e :: es) = (step s e).bind fun s' => run step s' es := rfl

theorem run_append (s : σ) (es fs : List ε) :
    run step s (es ++ fs) = (run step s es).bind fun s' => run step s' fs := by
  induction es generalizing s with
  | nil => rfl
  | cons e es ih =>
      simp only [List.cons_append, run_cons, Option.bind_assoc]
      congr 1
      funext s'
      exact ih s'

theorem run_trans {s t u : σ} {es fs : List ε}
    (hst : run step s es = some t) (htu : run step t fs = some u) :
    run step s (es ++ fs) = some u := by
  rw [run_append, hst]
  exact htu

theorem run_pair {s t u : σ} {e f : ε} (hst : step s e = some t)
    (htu : step t f = some u) : run step s [e, f] = some u := by
  rw [run_cons, hst, Option.bind_some, run_cons, htu, Option.bind_some, run_nil]

/-- An invariant of the initial states that every guarded step preserves holds
in every state reached by guarded steps. -/
theorem Reachable.invariant {Inv : σ → Prop}
    (hinit : ∀ s, init s → Inv s)
    (hstep : ∀ s e s', Inv s → guard s e → step s e = some s' → Inv s')
    {s : σ} (h : Reachable step init guard s) : Inv s := by
  induction h with
  | start h0 => exact hinit _ h0
  | next _ hg hs ih => exact hstep _ _ _ ih hg hs

/-- Weakening the guard reaches at least as many states. -/
theorem Reachable.mono {guard' : σ → ε → Prop}
    (hguard : ∀ s e, guard s e → guard' s e)
    {s : σ} (h : Reachable step init guard s) :
    Reachable step init guard' s := by
  induction h with
  | start h0 => exact .start h0
  | next _ hg hs ih => exact .next ih (hguard _ _ hg) hs

theorem Reachable.unguarded {s : σ} (h : Reachable step init guard s) :
    Reachable step init unguarded s :=
  h.mono fun _ _ _ => trivial

/-- The last state of a run whose steps all meet the guard is reachable. -/
theorem Reachable.of_run {s t : σ} {es : List ε}
    (hs : Reachable step init guard s)
    (hevery : Every step guard s es) (hrun : run step s es = some t) :
    Reachable step init guard t := by
  induction es generalizing s with
  | nil =>
      simp only [run_nil, Option.some.injEq] at hrun
      exact hrun ▸ hs
  | cons e es ih =>
      simp only [run_cons, Option.bind_eq_some_iff] at hrun
      obtain ⟨s', hs', htail⟩ := hrun
      obtain ⟨hg, hrest⟩ := hevery s' hs'
      exact ih (.next hs hg hs') hrest htail

theorem every_unguarded (s : σ) (es : List ε) :
    Every step unguarded s es := by
  induction es generalizing s with
  | nil => trivial
  | cons e es ih => exact fun s' _ => ⟨trivial, ih s'⟩

/-- A guard on the events alone holds along a run when all events meet it. -/
theorem every_of_forall {good : ε → Prop} {es : List ε}
    (h : ∀ e ∈ es, good e) (s : σ) : Every step (fun _ e => good e) s es := by
  induction es generalizing s with
  | nil => trivial
  | cons e es ih =>
      intro s' _
      obtain ⟨he, hes⟩ := List.forall_mem_cons.mp h
      exact ⟨he, ih hes s'⟩

theorem Reachable.of_unguarded_run {s t : σ} {es : List ε}
    (hs : Reachable step init Transition.unguarded s)
    (hrun : run step s es = some t) :
    Reachable step init Transition.unguarded t :=
  hs.of_run (every_unguarded s es) hrun

theorem Every.concat {s t : σ} {e : ε} {es : List ε}
    (h : Every step guard s es) (hrun : run step s es = some t)
    (hg : guard t e) : Every step guard s (es ++ [e]) := by
  induction es generalizing s with
  | nil =>
      simp only [run_nil, Option.some.injEq] at hrun
      exact fun s' _ => ⟨hrun ▸ hg, trivial⟩
  | cons f es ih =>
      intro s' hs'
      obtain ⟨hf, hrest⟩ := h s' hs'
      rw [run_cons, hs'] at hrun
      exact ⟨hf, ih hrest hrun⟩

/-- A reachable state is the last state of a run. -/
theorem Reachable.exists_run {s : σ} (h : Reachable step init guard s) :
    ∃ s₀ es, init s₀ ∧ Every step guard s₀ es ∧ run step s₀ es = some s := by
  induction h with
  | start h0 => exact ⟨_, [], h0, trivial, rfl⟩
  | next _ hg hs ih =>
      obtain ⟨s₀, es, h0, hevery, hrun⟩ := ih
      refine ⟨s₀, es ++ [_], h0, hevery.concat hrun hg, ?_⟩
      rw [run_append, hrun]
      simpa using hs

/-- The state after a list of events, when each of them is enabled and meets
the guard. -/
def runWhile (step : σ → ε → Option σ) (guard : σ → ε → Prop)
    [∀ s e, Decidable (guard s e)] : σ → List ε → Option σ
  | s, [] => some s
  | s, e :: es =>
      if guard s e then (step s e).bind fun s' => runWhile step guard s' es
      else none

theorem run_of_runWhile [∀ s e, Decidable (guard s e)]
    {s t : σ} {es : List ε} (hrun : runWhile step guard s es = some t) :
    run step s es = some t := by
  induction es generalizing s with
  | nil => exact hrun
  | cons e es ih =>
      by_cases hg : guard s e
      · simp only [runWhile, if_pos hg, Option.bind_eq_some_iff] at hrun
        obtain ⟨s', hs', htail⟩ := hrun
        rw [run_cons, hs']
        exact ih htail
      · simp [runWhile, if_neg hg] at hrun

theorem Reachable.of_runWhile [∀ s e, Decidable (guard s e)]
    {s t : σ} {es : List ε} (hs : Reachable step init guard s)
    (hrun : runWhile step guard s es = some t) :
    Reachable step init guard t := by
  induction es generalizing s with
  | nil =>
      simp only [runWhile, Option.some.injEq] at hrun
      exact hrun ▸ hs
  | cons e es ih =>
      by_cases hg : guard s e
      · simp only [runWhile, if_pos hg, Option.bind_eq_some_iff] at hrun
        obtain ⟨s', hs', htail⟩ := hrun
        exact ih (.next hs hg hs') htail
      · simp [runWhile, if_neg hg] at hrun

/-- A run that `runWhile` accepts meets the guard at every step. -/
theorem every_of_runWhile [∀ s e, Decidable (guard s e)]
    {s t : σ} {es : List ε} (hrun : runWhile step guard s es = some t) :
    Every step guard s es := by
  induction es generalizing s with
  | nil => trivial
  | cons e es ih =>
      by_cases hg : guard s e
      · simp only [runWhile, if_pos hg, Option.bind_eq_some_iff] at hrun
        obtain ⟨s', hs', htail⟩ := hrun
        intro s'' hs''
        obtain rfl := Option.some.inj (hs'.symm.trans hs'')
        exact ⟨hg, ih htail⟩
      · simp [runWhile, if_neg hg] at hrun

theorem Throughout.mono {P Q : σ → Prop} (hPQ : ∀ s, P s → Q s)
    {s : σ} {es : List ε} (h : Throughout step P s es) :
    Throughout step Q s es := by
  induction es generalizing s with
  | nil => exact hPQ s h
  | cons e es ih => exact ⟨hPQ s h.1, fun s' hs' => ih (h.2 s' hs')⟩

theorem Throughout.head {P : σ → Prop} {s : σ} {es : List ε}
    (h : Throughout step P s es) : P s := by
  cases es with
  | nil => exact h
  | cons e es => exact h.1

theorem Throughout.last {P : σ → Prop} {s t : σ} {es : List ε}
    (h : Throughout step P s es) (hrun : run step s es = some t) : P t := by
  induction es generalizing s with
  | nil =>
      simp only [run_nil, Option.some.injEq] at hrun
      exact hrun ▸ h
  | cons e es ih =>
      simp only [run_cons, Option.bind_eq_some_iff] at hrun
      obtain ⟨s', hs', htail⟩ := hrun
      exact ih (h.2 s' hs') htail

/-- An invariant that every guarded step preserves holds throughout a run whose
steps all meet the guard. -/
theorem throughout_of_every {Inv : σ → Prop}
    (hstep : ∀ s e s', Inv s → guard s e → step s e = some s' → Inv s')
    {s : σ} (hs : Inv s) {es : List ε} (h : Every step guard s es) :
    Throughout step Inv s es := by
  induction es generalizing s with
  | nil => exact hs
  | cons e es ih =>
      refine ⟨hs, fun s' hs' => ?_⟩
      obtain ⟨hg, hrest⟩ := h s' hs'
      exact ih (hstep s e s' hs hg hs') hrest

/-- Suppose that an allowed step from a state satisfying `P` leads to a state
satisfying `P` exactly when it meets the guard.  Then a run of allowed steps
from a state satisfying `P` stays in `P` exactly when all its steps meet the
guard.  `Inv` holds what is known of every state of the run, whether or not the
guard is met. -/
theorem throughout_iff_every_of_allowed {P Inv : σ → Prop}
    {allowed : σ → ε → Prop}
    (hinv : ∀ s e s', Inv s → allowed s e → step s e = some s' → Inv s')
    (hstep : ∀ s e s', Inv s → P s → allowed s e → step s e = some s' →
      (P s' ↔ guard s e))
    {s : σ} (hs : Inv s) (hP : P s) {es : List ε}
    (hallowed : Every step allowed s es) :
    Throughout step P s es ↔ Every step guard s es := by
  induction es generalizing s with
  | nil => exact ⟨fun _ => trivial, fun _ => hP⟩
  | cons e es ih =>
      constructor
      · rintro ⟨-, htail⟩ s' hs'
        obtain ⟨ha, hrest'⟩ := hallowed s' hs'
        have hrest := htail s' hs'
        have hP' : P s' := hrest.head
        exact ⟨(hstep s e s' hs hP ha hs').mp hP',
          (ih (hinv s e s' hs ha hs') hP' hrest').mp hrest⟩
      · intro hevery
        refine ⟨hP, fun s' hs' => ?_⟩
        obtain ⟨ha, hrest'⟩ := hallowed s' hs'
        obtain ⟨hg, hrest⟩ := hevery s' hs'
        have hP' : P s' := (hstep s e s' hs hP ha hs').mpr hg
        exact (ih (hinv s e s' hs ha hs') hP' hrest').mpr hrest

/-- The same for runs of arbitrary steps. -/
theorem throughout_iff_every {P Inv : σ → Prop}
    (hinv : ∀ s e s', Inv s → step s e = some s' → Inv s')
    (hstep : ∀ s e s', Inv s → P s → step s e = some s' →
      (P s' ↔ guard s e))
    {s : σ} (hs : Inv s) (hP : P s) (es : List ε) :
    Throughout step P s es ↔ Every step guard s es :=
  throughout_iff_every_of_allowed
    (fun s e s' hs _ => hinv s e s' hs)
    (fun s e s' hs hP _ => hstep s e s' hs hP) hs hP (every_unguarded s es)

/-- Suppose that a guarded step from a state satisfying `Q` leads to a state
satisfying `Q`, and that a step that leads to a state satisfying the weaker `P`
was guarded.  Then a run from a state satisfying `Q` stays in `P` exactly when
all its steps meet the guard. -/
theorem throughout_iff_every_of_stronger {P Q : σ → Prop}
    (hQP : ∀ s, Q s → P s)
    (hkept : ∀ s e s', Q s → guard s e → step s e = some s' → Q s')
    (hleft : ∀ s e s', Q s → step s e = some s' → P s' → guard s e)
    {s : σ} (hs : Q s) (es : List ε) :
    Throughout step P s es ↔ Every step guard s es := by
  constructor
  · intro hthroughout
    induction es generalizing s with
    | nil => trivial
    | cons e es ih =>
        intro s' hs'
        have hrest := hthroughout.2 s' hs'
        have hg : guard s e := hleft s e s' hs hs' hrest.head
        exact ⟨hg, ih (hkept s e s' hs hg hs') hrest⟩
  · intro hevery
    exact (throughout_of_every hkept hs hevery).mono hQP

end Transition
