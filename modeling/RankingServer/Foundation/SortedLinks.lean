import Mathlib

/-!
# Sets that are linked in the order of their keys

Each element of a set has a link to the element with the next key, and a head in
front of the set has one to the first element.  What a search along the links
relies on is said here element by element, without the sequence that the links
form: a link leads to the least element above (`IsNext`).  An element is put in
by changing the one link that leads past it.
-/

namespace SortedLinks

variable {α K : Type*} [LinearOrder K] {key key' : α → K}
  {next next' : α → Option α} {head : α} {S : Set α}

/-- The element of `S` with the least key above `k`, if any key is above. -/
structure IsNext (key : α → K) (S : Set α) (k : K) (next : Option α) :
    Prop where
  mem : ∀ c ∈ next, c ∈ S ∧ k < key c
  least : ∀ m ∈ S, k < key m → ∃ c ∈ next, key c ≤ key m

structure Links (key : α → K) (next : α → Option α) (head : α) (S : Set α) :
    Prop where
  above : ∀ n ∈ S, key head < key n
  injective : Set.InjOn key S
  isNext : ∀ p ∈ insert head S, IsNext key S (key p) (next p)

theorem isNext_empty (k : K) : IsNext key ∅ k none :=
  ⟨by simp, by simp⟩

theorem links_empty (h : next head = none) : Links key next head ∅ := by
  refine ⟨by simp, by simp, ?_⟩
  intro p hp
  obtain rfl : p = head := by simpa using hp
  rw [h]
  exact isNext_empty _

theorem IsNext.congr {k : K} {c : Option α} (h : IsNext key S k c)
    (hkey : ∀ n ∈ S, key' n = key n) : IsNext key' S k c := by
  constructor
  · intro n hn
    obtain ⟨hmem, hlt⟩ := h.mem n hn
    exact ⟨hmem, (hkey n hmem).symm ▸ hlt⟩
  · intro m hm hlt
    rw [hkey m hm] at hlt ⊢
    obtain ⟨n, hn, hle⟩ := h.least m hm hlt
    exact ⟨n, hn, (hkey n (h.mem n hn).1).symm ▸ hle⟩

/-- Following the links from `p` visits exactly the elements of the list. -/
def Path (next : α → Option α) : α → List α → Prop
  | p, [] => next p = none
  | p, n :: ns => next p = some n ∧ Path next n ns

theorem Path.unique {p : α} {ns ms : List α} (hns : Path next p ns)
    (hms : Path next p ms) : ns = ms := by
  induction ns generalizing p ms with
  | nil =>
      cases ms with
      | nil => rfl
      | cons m ms => exact absurd (hns.symm.trans hms.1) (by simp)
  | cons n ns ih =>
      cases ms with
      | nil => exact absurd (hms.symm.trans hns.1) (by simp)
      | cons m ms =>
          obtain rfl := Option.some.inj (hns.1.symm.trans hms.1)
          rw [ih hns.2 hms.2]

namespace Links

variable (h : Links key next head S) {p n m : α}
include h

/-- The links stand for the same set as long as keys and links are the same. -/
theorem congr (hkey : ∀ n ∈ insert head S, key' n = key n)
    (hnext : ∀ n ∈ insert head S, next' n = next n) :
    Links key' next' head S := by
  have hmem : ∀ n ∈ S, key' n = key n :=
    fun n hn => hkey n (Set.mem_insert_of_mem head hn)
  refine ⟨?_, ?_, ?_⟩
  · intro n hn
    rw [hkey head (Set.mem_insert head S), hmem n hn]
    exact h.above n hn
  · intro n hn m hm heq
    rw [hmem n hn, hmem m hm] at heq
    exact h.injective hn hm heq
  · intro p hp
    rw [hkey p hp, hnext p hp]
    exact (h.isNext p hp).congr hmem

/-- An element whose key lies between those at the two ends of a link is not in
the set. -/
theorem notMem_of_between (hp : p ∈ insert head S) (hlt : key p < key n)
    (hnext : ∀ c ∈ next p, key n < key c) : n ∉ insert head S := by
  intro hn
  rcases hn with rfl | hn
  · rcases hp with rfl | hp
    · exact lt_irrefl _ hlt
    · exact lt_asymm hlt (h.above p hp)
  · obtain ⟨c, hc, hle⟩ := (h.isNext p hp).least n hn hlt
    exact (hnext c hc).not_ge hle

/-- Every other element of the set lies before the start of a link or behind its
end. -/
theorem lt_or_exists_le {q : α} (hp : p ∈ insert head S)
    (hq : q ∈ insert head S) (hne : q ≠ p) :
    (p ∈ S ∧ key q < key p) ∨ ∃ c ∈ next p, key c ≤ key q := by
  rcases hq with rfl | hq
  · rcases hp with rfl | hp
    · exact absurd rfl hne
    · exact .inl ⟨hp, h.above p hp⟩
  · rcases lt_trichotomy (key q) (key p) with hlt | heq | hgt
    · rcases hp with rfl | hp
      · exact absurd hlt (h.above q hq).not_gt
      · exact .inl ⟨hp, hlt⟩
    · rcases hp with rfl | hp
      · exact absurd heq.symm (h.above q hq).ne
      · exact absurd (h.injective hq hp heq) hne
    · exact .inr ((h.isNext p hp).least q hq hgt)

/-- Putting an element in behind `p`. -/
theorem insert (hp : p ∈ insert head S) (hlt : key p < key n)
    (hnext : ∀ c ∈ next p, key n < key c) (hp' : next' p = some n)
    (hn' : next' n = next p)
    (hrest : ∀ q ∈ Insert.insert head S, q ≠ p → next' q = next q) :
    Links key next' head (Insert.insert n S) := by
  have hfresh := h.notMem_of_between hp hlt hnext
  have hhead : key head < key n := by
    rcases hp with rfl | hp
    · exact hlt
    · exact (h.above p hp).trans hlt
  refine ⟨?_, ?_, ?_⟩
  · rintro m (rfl | hm)
    · exact hhead
    · exact h.above m hm
  · refine (Set.injOn_insert fun hn => hfresh (.inr hn)).mpr ⟨h.injective, ?_⟩
    rintro ⟨m, hm, heq⟩
    have hlt' : key p < key m := heq ▸ hlt
    obtain ⟨c, hc, hle⟩ := (h.isNext p hp).least m hm hlt'
    exact (hnext c hc).not_ge (heq ▸ hle)
  · intro q hq
    by_cases hqn : q = n
    · subst hqn
      rw [hn']
      constructor
      · intro c hc
        exact ⟨.inr ((h.isNext p hp).mem c hc).1, hnext c hc⟩
      · rintro m (rfl | hm) hltm
        · exact absurd hltm (lt_irrefl _)
        · exact (h.isNext p hp).least m hm (hlt.trans hltm)
    · have hold : q ∈ Insert.insert head S := by
        rcases hq with rfl | rfl | hq
        · exact .inl rfl
        · exact absurd rfl hqn
        · exact .inr hq
      by_cases hqp : q = p
      · subst hqp
        rw [hp']
        constructor
        · intro c hc
          obtain rfl := Option.some.inj hc
          exact ⟨.inl rfl, hlt⟩
        · rintro m (rfl | hm) hltm
          · exact ⟨m, rfl, le_rfl⟩
          · obtain ⟨c, hc, hle⟩ := (h.isNext q hp).least m hm hltm
            exact ⟨n, rfl, (hnext c hc).le.trans hle⟩
      · rw [hrest q hold hqp]
        have hq' := h.isNext q hold
        constructor
        · intro c hc
          exact ⟨.inr (hq'.mem c hc).1, (hq'.mem c hc).2⟩
        · rintro m (rfl | hm) hltm
          · rcases h.lt_or_exists_le hp hold hqp with ⟨hpS, hqlt⟩ | ⟨c, hc, hle⟩
            · obtain ⟨d, hd, hle⟩ := hq'.least p hpS hqlt
              exact ⟨d, hd, hle.trans hlt.le⟩
            · exact absurd hltm ((hnext c hc).trans_le hle).not_gt
          · exact hq'.least m hm hltm

/-- A search that stops at a link finds the element that it looks for. -/
theorem eq_of_stop (hp : p ∈ Insert.insert head S) (hm : m ∈ S)
    (hlt : key p < key m) (hstop : ∀ c ∈ next p, key m ≤ key c) :
    next p = some m := by
  obtain ⟨c, hc, hle⟩ := (h.isNext p hp).least m hm hlt
  have heq : key c = key m := hle.antisymm (hstop c hc)
  exact h.injective ((h.isNext p hp).mem c hc).1 hm heq ▸ hc

/-! ### The sequence of the elements -/

/-- The elements above `p`, which a search from `p` has in front of it. -/
theorem card_above_lt (hfinite : S.Finite) (hp : p ∈ Insert.insert head S)
    (hn : next p = some n) :
    {m ∈ S | key n < key m}.ncard < {m ∈ S | key p < key m}.ncard := by
  obtain ⟨hmem, hlt⟩ := (h.isNext p hp).mem n hn
  refine Set.ncard_lt_ncard ?_ (hfinite.sep _)
  refine ⟨fun m hm => ⟨hm.1, hlt.trans hm.2⟩, ?_⟩
  intro hsub
  exact lt_irrefl _ (hsub ⟨hmem, hlt⟩ : n ∈ {m ∈ S | key n < key m}).2

theorem exists_path_from (hfinite : S.Finite) (hp : p ∈ Insert.insert head S) :
    ∃ ns, Path next p ns ∧ ns.Pairwise (fun n m => key n < key m) ∧
      ∀ n, n ∈ ns ↔ n ∈ S ∧ key p < key n := by
  induction hcard : {m ∈ S | key p < key m}.ncard using Nat.strong_induction_on
    generalizing p with
  | _ card ih =>
    have hnext := h.isNext p hp
    cases hn : next p with
    | none =>
        refine ⟨[], hn, .nil, ?_⟩
        intro m
        constructor
        · intro hm
          cases hm
        · rintro ⟨hm, hlt⟩
          obtain ⟨c, hc, -⟩ := hnext.least m hm hlt
          rw [hn] at hc
          cases hc
    | some n =>
        obtain ⟨hmem, hlt⟩ := hnext.mem n hn
        obtain ⟨ns, hpath, hsorted, hiff⟩ := ih _
          (hcard ▸ h.card_above_lt hfinite hp hn) (.inr hmem) rfl
        refine ⟨n :: ns, ⟨hn, hpath⟩, ?_, ?_⟩
        · exact List.pairwise_cons.mpr
            ⟨fun m hm => ((hiff m).mp hm).2, hsorted⟩
        · intro m
          rw [List.mem_cons, hiff]
          constructor
          · rintro (rfl | ⟨hm, hltm⟩)
            · exact ⟨hmem, hlt⟩
            · exact ⟨hm, hlt.trans hltm⟩
          · rintro ⟨hm, hltm⟩
            obtain ⟨c, hc, hle⟩ := hnext.least m hm hltm
            obtain rfl := Option.some.inj (hn.symm.trans hc)
            rcases hle.lt_or_eq with hlt' | heq
            · exact .inr ⟨hm, hlt'⟩
            · exact .inl (h.injective hm hmem heq.symm)

/-- From the head, the links visit the whole set in the order of the keys. -/
theorem exists_path (hfinite : S.Finite) :
    ∃ ns, Path next head ns ∧ ns.Pairwise (fun n m => key n < key m) ∧
      ∀ n, n ∈ ns ↔ n ∈ S := by
  obtain ⟨ns, hpath, hsorted, hiff⟩ :=
    h.exists_path_from hfinite (Set.mem_insert head S)
  refine ⟨ns, hpath, hsorted, ?_⟩
  intro n
  rw [hiff]
  exact ⟨And.left, fun hn => ⟨hn, h.above n hn⟩⟩

end Links

end SortedLinks
