import RankingServer.Foundation.Transition

/-!
# Potentials

The events of a system are divided into its own and those of its environment.  A
potential pays for the own steps: each of them takes at least one unit, and an
event of the environment brings in a bounded number.  A run then has no more own
steps than the potential of its first state and the events of the environment
pay for, and from any state the system comes to rest.
-/

namespace Transition

variable {σ ε : Type*}

/-- No event of the system itself is enabled. -/
def AtRest (step : σ → ε → Option σ) (own : ε → Bool) (s : σ) : Prop :=
  ∀ e, own e = true → step s e = none

/-- Own steps take from the potential, and the others bring in at most their
gain. -/
structure Potential (step : σ → ε → Option σ) (own : ε → Bool) (gain : ε → ℕ)
    (φ : σ → ℕ) : Prop where
  pays : ∀ s e s', step s e = some s' → own e = true → φ s' < φ s
  gains : ∀ s e s', step s e = some s' → own e = false → φ s' ≤ φ s + gain e

/-- What the events of the environment bring in. -/
def income (own : ε → Bool) (gain : ε → ℕ) (es : List ε) : ℕ :=
  (es.map fun e => if own e then 0 else gain e).sum

theorem income_ite_le (own p : ε → Bool) (k : ℕ) (es : List ε) :
    income own (fun e => if p e then k else 0) es ≤ k * es.countP p := by
  induction es with
  | nil => exact Nat.zero_le _
  | cons e es ih =>
      rw [income, List.map_cons, List.sum_cons, ← income, List.countP_cons,
        mul_add, Nat.add_comm]
      apply Nat.add_le_add ih
      cases p e with
      | true =>
          split
          · exact Nat.zero_le _
          · exact Nat.le_of_eq (Nat.mul_one k).symm
      | false => simp

theorem income_of_own {own : ε → Bool} (gain : ε → ℕ) {es : List ε}
    (hown : ∀ e ∈ es, own e = true) : income own gain es = 0 := by
  rw [income, List.sum_eq_zero_iff]
  intro x hx
  obtain ⟨e, he, rfl⟩ := List.mem_map.mp hx
  rw [hown e he, if_pos rfl]

/-- The own steps of a run are paid for, when an invariant is needed to see
it. -/
theorem countP_le_of_invariant {step : σ → ε → Option σ} {own : ε → Bool}
    {gain : ε → ℕ} {φ : σ → ℕ} {Inv : σ → Prop}
    (hstep : ∀ s e s', Inv s → step s e = some s' → Inv s' ∧
      (own e = true → φ s' < φ s) ∧ (own e = false → φ s' ≤ φ s + gain e))
    {s t : σ} {es : List ε} (hs : Inv s) (hrun : run step s es = some t) :
    es.countP own + φ t ≤ φ s + income own gain es := by
  induction es generalizing s with
  | nil =>
      obtain rfl := Option.some.inj hrun
      simp
  | cons e es ih =>
      obtain ⟨s', hs', htail⟩ := Option.bind_eq_some_iff.mp hrun
      obtain ⟨hinv, hpays, hgains⟩ := hstep s e s' hs hs'
      have hrest := ih hinv htail
      rw [List.countP_cons, income, List.map_cons, List.sum_cons, ← income]
      cases hown : own e with
      | true =>
          have hless := hpays hown
          simp only [if_true]
          omega
      | false =>
          have hmore := hgains hown
          simp only [Bool.false_eq_true, if_false]
          omega

namespace Potential

variable {step : σ → ε → Option σ} {own : ε → Bool} {gain : ε → ℕ} {φ : σ → ℕ}

/-- The own steps of a run are paid for. -/
theorem countP_le (h : Potential step own gain φ) {s t : σ} {es : List ε}
    (hrun : run step s es = some t) :
    es.countP own + φ t ≤ φ s + income own gain es :=
  countP_le_of_invariant
    (fun s e s' _ hstep => ⟨trivial, h.pays s e s' hstep, h.gains s e s' hstep⟩)
    trivial hrun

/-- A run of own steps is not longer than the potential. -/
theorem length_le (h : Potential step own gain φ) {s t : σ} {es : List ε}
    (hown : ∀ e ∈ es, own e = true) (hrun : run step s es = some t) :
    es.length ≤ φ s := by
  have hcount := h.countP_le hrun
  rw [List.countP_eq_length.mpr hown, income_of_own gain hown] at hcount
  omega

end Potential

end Transition
