import Mathlib

/-!
# Objects and their specifications

An object is given by what a call makes of its state and by what the call
returns.  A specification is an object whose calls may leave their result open.
When every call on related states leads to related states and returns what the
specification asks for, the same holds for every sequence of calls.
-/

namespace Refinement

variable {σ τ κ ρ : Type*}

/-- The state after some calls, and what they returned. -/
def runCalls (call : σ → κ → σ × ρ) : σ → List κ → σ × List ρ
  | s, [] => (s, [])
  | s, c :: cs =>
      ((runCalls call (call s c).1 cs).1,
        (call s c).2 :: (runCalls call (call s c).1 cs).2)

/-- A result is the one that is asked for, if one is. -/
def Meets (result : ρ) (asked : Option ρ) : Prop :=
  ∀ r ∈ asked, result = r

@[simp] theorem meets_none (result : ρ) : Meets result none := by
  simp [Meets]

@[simp] theorem meets_some {result r : ρ} :
    Meets result (some r) ↔ result = r := by
  simp [Meets]

/-- What one call has to preserve. -/
structure Refines (R : σ → τ → Prop) (call : σ → κ → σ × ρ)
    (spec : τ → κ → τ × Option ρ) : Prop where
  state : ∀ s t c, R s t → R (call s c).1 (spec t c).1
  result : ∀ s t c, R s t → Meets (call s c).2 (spec t c).2

/-- Sequences of calls on related states. -/
theorem Refines.runCalls {R : σ → τ → Prop} {call : σ → κ → σ × ρ}
    {spec : τ → κ → τ × Option ρ} (h : Refines R call spec) {s : σ} {t : τ}
    (hst : R s t) (cs : List κ) :
    R (runCalls call s cs).1 (Refinement.runCalls spec t cs).1 ∧
      List.Forall₂ Meets (Refinement.runCalls call s cs).2
        (Refinement.runCalls spec t cs).2 := by
  induction cs generalizing s t with
  | nil => exact ⟨hst, List.Forall₂.nil⟩
  | cons c cs ih =>
      obtain ⟨hstate, hresults⟩ := ih (h.state s t c hst)
      exact ⟨hstate, List.Forall₂.cons (h.result s t c hst) hresults⟩

end Refinement
