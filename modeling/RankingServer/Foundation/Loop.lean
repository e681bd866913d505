import Mathlib

/-!
# Loops that end

One pass of a loop either leaves a state for the next pass or the result.  A
measure that every pass decreases bounds the number of passes, so that the loop
has a result, which is computed by recursion on that bound.
-/

universe u v

/-- A loop and the measure that shows that it ends. -/
structure Loop (σ : Type u) (ρ : Type v) where
  pass : σ → σ ⊕ ρ
  measure : σ → ℕ
  decreases : ∀ s t, pass s = .inl t → measure t < measure s

namespace Loop

variable {σ : Type u} {ρ : Type v} (L : Loop σ ρ) {s t : σ} {r : ρ}

/-- The result, when it takes no more passes than there is fuel. -/
def iterate : ℕ → σ → Option ρ
  | 0, _ => none
  | fuel + 1, s =>
      match L.pass s with
      | .inl t => iterate fuel t
      | .inr r => some r

theorem isSome_iterate {fuel : ℕ} (hfuel : L.measure s < fuel) :
    (L.iterate fuel s).isSome := by
  induction fuel generalizing s with
  | zero => cases hfuel
  | succ fuel ih =>
      rw [iterate]
      split
      · next t ht =>
          have hless := L.decreases s t ht
          exact ih (by omega)
      · rfl

/-- Fuel that is enough may be increased. -/
theorem iterate_eq_of_le {fuel fuel' : ℕ} (hfuel : L.measure s < fuel)
    (hle : fuel ≤ fuel') : L.iterate fuel' s = L.iterate fuel s := by
  induction fuel generalizing s fuel' with
  | zero => cases hfuel
  | succ fuel ih =>
      obtain ⟨more, rfl⟩ := Nat.exists_eq_add_of_le' hle
      rw [iterate, Nat.add_succ, iterate]
      split
      · next t ht =>
          have hless := L.decreases s t ht
          exact ih (by omega) (Nat.le_add_left _ _)
      · rfl

def result (s : σ) : ρ :=
  (L.iterate (L.measure s + 1) s).get (L.isSome_iterate (Nat.lt_succ_self _))

theorem result_of_inr (h : L.pass s = .inr r) : L.result s = r := by
  simp only [result, iterate, h, Option.get_some]

theorem result_of_inl (h : L.pass s = .inl t) : L.result s = L.result t := by
  have hless := L.decreases s t h
  have hfuel : L.iterate (L.measure s + 1) s =
      L.iterate (L.measure t + 1) t := by
    rw [iterate, h]
    exact L.iterate_eq_of_le (Nat.lt_succ_self _) hless
  simp only [result, hfuel]

/-- What holds of the last pass holds of the result, if each pass passes it back
to the one before. -/
theorem induction {P : σ → ρ → Prop}
    (last : ∀ s r, L.pass s = .inr r → P s r)
    (again : ∀ s t, L.pass s = .inl t → P t (L.result t) → P s (L.result t))
    (s : σ) : P s (L.result s) := by
  induction hs : L.measure s using Nat.strong_induction_on generalizing s with
  | _ n ih =>
      cases hpass : L.pass s with
      | inl t =>
          have hless := L.decreases s t hpass
          rw [L.result_of_inl hpass]
          exact again s t hpass (ih _ (hs ▸ hless) t rfl)
      | inr r =>
          rw [L.result_of_inr hpass]
          exact last s r hpass

/-- The invariant rule: what every pass keeps holds when the last one starts. -/
theorem invariant {I : σ → Prop} {P : ρ → Prop}
    (keeps : ∀ s t, I s → L.pass s = .inl t → I t)
    (ends : ∀ s r, I s → L.pass s = .inr r → P r) (hs : I s) :
    P (L.result s) := by
  refine L.induction (P := fun s r => I s → P r) ?_ ?_ s hs
  · intro s r hpass hs
    exact ends s r hs hpass
  · intro s t hpass ih hs
    exact ih (keeps s t hs hpass)

end Loop
