import Mathlib

/-!
# Row numbers

The numbers that rows get when they are counted off in descending order of a
score.  Rows with equal scores may come in any order, so that a number is only
bounded by how many rows have a greater score, and how many have at least the
same.
-/

namespace RowNumber

variable {α κ : Type*} [LinearOrder κ] {score : α → κ}
  {front rest : List α} {x : α}

/-- Rows with greater scores come first. -/
theorem countP_lt_le_length
    (hsorted : (front ++ x :: rest).Pairwise fun a b => score b ≤ score a) :
    (front ++ x :: rest).countP (fun a => score x < score a) ≤
      front.length := by
  obtain ⟨-, hrest, -⟩ := List.pairwise_append.mp hsorted
  have hbehind : (x :: rest).countP (fun a => score x < score a) = 0 := by
    rw [List.countP_eq_zero]
    intro a ha
    rcases List.mem_cons.mp ha with rfl | ha
    · simp
    · simpa using List.rel_of_pairwise_cons hrest ha
  rw [List.countP_append, hbehind, Nat.add_zero]
  exact List.countP_le_length

/-- Rows that come first have at least the same score. -/
theorem length_lt_countP_le
    (hsorted : (front ++ x :: rest).Pairwise fun a b => score b ≤ score a) :
    front.length <
      (front ++ x :: rest).countP (fun a => score x ≤ score a) := by
  obtain ⟨-, -, hfirst⟩ := List.pairwise_append.mp hsorted
  have hfront : front.countP (fun a => score x ≤ score a) = front.length := by
    rw [List.countP_eq_length]
    intro a ha
    simpa using hfirst a ha x List.mem_cons_self
  rw [List.countP_append, hfront, List.countP_cons_of_pos (by simp)]
  omega

/-- The number of a row, counted from one, in a list that is in descending order
of the scores up to a permutation of `rows`. -/
theorem bounds {rows ordered : List α} (hperm : ordered.Perm rows)
    (hsorted : ordered.Pairwise fun a b => score b ≤ score a) {i : ℕ}
    (hget : ordered[i]? = some x) :
    rows.countP (fun a => score x < score a) < i + 1 ∧
      i + 1 ≤ rows.countP (fun a => score x ≤ score a) := by
  obtain ⟨hi, hx⟩ := List.getElem?_eq_some_iff.mp hget
  have hsplit : ordered = ordered.take i ++ x :: ordered.drop (i + 1) := by
    rw [← hx, List.cons_getElem_drop_succ, List.take_append_drop]
  have hlength : (ordered.take i).length = i := by
    rw [List.length_take]
    omega
  rw [hsplit] at hsorted
  have habove := countP_lt_le_length hsorted
  have hatLeast := length_lt_countP_le hsorted
  rw [← hsplit, hperm.countP_eq, hlength] at habove hatLeast
  exact ⟨Nat.lt_succ_of_le habove, hatLeast⟩

end RowNumber
