import Mathlib

/-!
# Counting over a family of threads

The conservation arguments count an object over all the places where it can be:
lists of pending work and the local states of finitely many threads.  A step
changes the local state of one thread, so a sum over the threads changes by the
difference between its new and its old contribution.
-/

namespace Accounting

variable {ι α : Type*} [Fintype ι]

/-- The contribution of one thread is part of the sum. -/
theorem le_sum (f : ι → ℕ) (i : ι) : f i ≤ ∑ j, f j :=
  Finset.single_le_sum (fun _ _ => Nat.zero_le _) (Finset.mem_univ i)

variable [DecidableEq ι]

/-- Replacing the state of one thread exchanges its contribution. -/
theorem sum_update_add (threads : ι → α) (i : ι) (new : α) (f : α → ℕ) :
    (∑ j, f (Function.update threads i new j)) + f (threads i) =
      (∑ j, f (threads j)) + f new := by
  have hsplit (g : ι → ℕ) : ∑ j, g j = g i + ∑ j ∈ Finset.univ.erase i, g j :=
    (Finset.add_sum_erase _ g (Finset.mem_univ i)).symm
  have hrest : ∑ j ∈ Finset.univ.erase i, f (Function.update threads i new j) =
      ∑ j ∈ Finset.univ.erase i, f (threads j) := by
    apply Finset.sum_congr rfl
    intro j hj
    rw [Function.update_of_ne (Finset.ne_of_mem_erase hj)]
  rw [hsplit, hsplit (fun j => f (threads j)), hrest, Function.update_self]
  omega

/-- The contributions of two distinct threads are both part of the sum. -/
theorem add_le_sum_of_ne (f : ι → ℕ) {i j : ι} (hij : i ≠ j) :
    f i + f j ≤ ∑ k, f k := by
  have hmem : j ∈ Finset.univ.erase i :=
    Finset.mem_erase.mpr ⟨hij.symm, Finset.mem_univ j⟩
  have hj : f j ≤ ∑ k ∈ Finset.univ.erase i, f k :=
    Finset.single_le_sum (fun _ _ => Nat.zero_le _) hmem
  have hsplit := Finset.add_sum_erase Finset.univ f (Finset.mem_univ i)
  omega

/-! ## Exchanging one entry of a list -/

/-- An entry can be brought to the front. -/
theorem perm_cons_eraseIdx {l : List α} {k : ℕ} {a : α}
    (hget : l[k]? = some a) : l.Perm (a :: l.eraseIdx k) := by
  induction l generalizing k with
  | nil => simp at hget
  | cons b l ih =>
      cases k with
      | zero =>
          simp only [List.getElem?_cons_zero, Option.some.injEq] at hget
          rw [hget, List.eraseIdx_cons_zero]
      | succ k =>
          simp only [List.getElem?_cons_succ] at hget
          exact ((ih hget).cons b).trans (.swap a b _)

/-- Overwriting an entry removes it and adds the new one. -/
theorem set_perm_cons_eraseIdx {l : List α} {k : ℕ} {a : α} (b : α)
    (hget : l[k]? = some a) : (l.set k b).Perm (b :: l.eraseIdx k) := by
  have hset : (l.set k b)[k]? = some b := by
    obtain ⟨hlt, -⟩ := List.getElem?_eq_some_iff.mp hget
    exact List.getElem?_set_self hlt
  have hperm := perm_cons_eraseIdx hset
  rwa [List.eraseIdx_set_eq] at hperm

/-- Removing one entry of a list takes its contribution out of the count. -/
theorem countP_eraseIdx {l : List α} {k : ℕ} {a : α} (p : α → Bool)
    (hget : l[k]? = some a) :
    (l.eraseIdx k).countP p + (if p a then 1 else 0) = l.countP p := by
  rw [(perm_cons_eraseIdx hget).countP_eq, List.countP_cons]

/-- Adding up an indicator counts. -/
theorem sum_indicator [DecidableEq α] (l : List α) (a : α) :
    (l.map fun b => if b = a then 1 else 0).sum = l.count a := by
  induction l with
  | nil => rfl
  | cons b l ih =>
      rw [List.map_cons, List.sum_cons, ih, List.count_cons]
      simp only [beq_iff_eq]
      omega

/-- Removing one entry of a list takes its contribution out of the sum. -/
theorem sum_eraseIdx {l : List α} {k : ℕ} {a : α} (f : α → ℕ)
    (hget : l[k]? = some a) :
    f a + ((l.eraseIdx k).map f).sum = (l.map f).sum := by
  rw [((perm_cons_eraseIdx hget).map f).sum_eq, List.map_cons, List.sum_cons]

/-- Overwriting one entry of a list exchanges its contribution. -/
theorem sum_set {l : List α} {k : ℕ} {a : α} (b : α) (f : α → ℕ)
    (hget : l[k]? = some a) :
    f a + ((l.set k b).map f).sum = f b + (l.map f).sum := by
  rw [((set_perm_cons_eraseIdx b hget).map f).sum_eq, List.map_cons,
    List.sum_cons, ← sum_eraseIdx f hget]
  omega

/-! ## At most one thread in a part of its program -/

/-- At most one thread is in a local state with property `P`. -/
def AtMostOne (P : α → Prop) (threads : ι → α) : Prop :=
  ∀ i j, P (threads i) → P (threads j) → i = j

omit [Fintype ι] in
/-- A thread may enter the part when it was in it already or nobody was. -/
theorem AtMostOne.update {P : α → Prop} {threads : ι → α}
    (h : AtMostOne P threads) {i : ι} {new : α}
    (henter : P new → P (threads i) ∨ ∀ j, ¬ P (threads j)) :
    AtMostOne P (Function.update threads i new) := by
  have hother (j : ι) (hji : j ≠ i)
      (hj : P (Function.update threads i new j)) (hnew : P new) : False := by
    rw [Function.update_of_ne hji] at hj
    rcases henter hnew with hi | hnone
    · exact hji (h j i hj hi)
    · exact hnone j hj
  intro j k hj hk
  by_cases hji : j = i
  · by_cases hki : k = i
    · rw [hji, hki]
    · subst hji
      rw [Function.update_self] at hj
      exact (hother k hki hk hj).elim
  · by_cases hki : k = i
    · subst hki
      rw [Function.update_self] at hk
      exact (hother j hji hj hk).elim
    · rw [Function.update_of_ne hji] at hj
      rw [Function.update_of_ne hki] at hk
      exact h j k hj hk

end Accounting
