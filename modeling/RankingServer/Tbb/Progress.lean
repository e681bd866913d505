import RankingServer.Tbb.Linearization

/-!
# How long a call takes

A search moves forward on a level or goes down to the next one, so that the
nodes between its position and its key, and the levels below it, bound the
accesses that are left.  An insertion repeats its search and its
compare-and-swaps only when another insertion has changed a link in between:
without one, the links are still those that were loaded (`Alone`), and it takes
two accesses for each of its levels.
-/

namespace Tbb

open Transition SortedLinks

universe u v w

variable {T : Type w} {K : Type u} {V : Type v} [LinearOrder K]
  {s s' : Shared K V} {S S' : ℕ → Set ℕ} {level n : ℕ} {key : K}
  {new : Insertion K V} {arrays : Arrays}

/-- The nodes that a search for the key has in front of it. -/
noncomputable def ahead (s : Shared K V) (key : K) (prev : ℕ) : ℕ :=
  {m | Listed s m ∧ s.rank prev < s.rank m ∧ s.rank m < key}.ncard

theorem ahead_le (h : Levels s S) (key : K) (prev : ℕ) :
    ahead s key prev ≤ (S 0).ncard :=
  Set.ncard_le_ncard (fun _ hm => (listed_iff h).mp hm.1) h.finite

theorem ahead_lt (h : Levels s S) {prev : ℕ} (hn : n ∈ S level)
    (hprev : s.rank prev < s.rank n) (hlt : s.rank n < key) :
    ahead s key n < ahead s key prev := by
  have hfinite : {m | Listed s m ∧ s.rank prev < s.rank m ∧
      s.rank m < key}.Finite :=
    h.finite.subset fun _ hm => (listed_iff h).mp hm.1
  refine Set.ncard_lt_ncard ?_ hfinite
  refine ⟨fun m hm => ⟨hm.1, hprev.trans hm.2.1, hm.2.2⟩, ?_⟩
  intro hsub
  have hlisted : Listed s n :=
    (listed_iff h).mpr (h.nested (Nat.zero_le level) hn)
  exact lt_irrefl _ (hsub ⟨hlisted, hprev, hlt⟩).2.1

/-- The accesses that are left of a call, when the list has at most `size`
nodes. -/
noncomputable def Point.left (size : ℕ) (s : Shared K V) : Point K V → ℕ
  | .getHead new => 2 * new.height + max_level + size + 7
  | .casHead new _ => 2 * new.height + max_level + size + 6
  | .loadHeight new _ _ => 2 * new.height + max_level + size + 5
  | .fill new _ _ level prev =>
      2 * new.height + level + ahead s new.key prev + 5
  | .compare new _ _ => 2 * new.height + 4
  | .link new _ _ => 2 * new.height + 3
  | .loadMax new _ => 2 * new.height + 2
  | .raiseMax new _ _ => 2 * new.height + 1
  | .setNext new _ level => 2 * (new.height - level) + 1
  | .linkUpper new _ level => 2 * (new.height - level)
  | .count _ => 1
  | .findHead _ => max_level + size + 3
  | .findHeight _ _ => max_level + size + 2
  | .findAt key level prev => level + ahead s key prev + 1
  | _ => 0

variable {size : ℕ}

/-- A pass of a search leaves less in front of it. -/
theorem ahead_lt_of_advance (h : Levels s S) (hlevel : level < max_level)
    {prev : ℕ} (hbefore : Before s (S level) key prev)
    (hn : n ∈ S level) (hlink : s.link level prev = some n)
    (hlt : s.rank n < key) : ahead s key n < ahead s key prev :=
  ahead_lt h hn ((h.isNext hlevel hbefore.pos).mem n hlink).2 hlt

/-! ## Searches -/

/-- An access of a search changes nothing and leaves less to do. -/
theorem left_lt_of_search (h : Levels s S) (hsize : (S 0).ncard ≤ size)
    {point point' : Point K V} (hok : point.Ok s S)
    (hserves : point.Serves (.search key))
    (haccess : s.access point = some (s', point')) :
    s' = s ∧ point'.left size s' < point.left size s := by
  have hheight := h.height
  cases point with
  | findHead k =>
      rw [Shared.access] at haccess
      split at haccess
      all_goals
        obtain ⟨rfl, rfl⟩ := Prod.mk.inj (Option.some.inj haccess)
        refine ⟨rfl, ?_⟩
        simp only [Point.left]
        omega
  | findHeight k head =>
      rw [Shared.access] at haccess
      have hahead := ahead_le h k head
      split at haccess
      all_goals
        obtain ⟨rfl, rfl⟩ := Prod.mk.inj (Option.some.inj haccess)
        refine ⟨rfl, ?_⟩
        simp only [Point.left]
        omega
  | findAt k level prev =>
      obtain ⟨hlevel, -, hbefore⟩ := hok
      rcases h.advance_spec hlevel hbefore with
        ⟨n, hadvance, hn, hlink, hlt⟩ | ⟨hadvance, hafter⟩
      · simp only [Shared.access, hadvance, Option.bind_some,
          Option.some.injEq, Prod.mk.injEq] at haccess
        obtain ⟨rfl, rfl⟩ := haccess
        have hless := ahead_lt_of_advance h hlevel hbefore hn hlink hlt
        refine ⟨rfl, ?_⟩
        simp only [Point.left]
        omega
      · by_cases hlow : 0 < level
        · simp only [Shared.access, hadvance, Option.bind_some, if_pos hlow,
            Option.some.injEq, Prod.mk.injEq] at haccess
          obtain ⟨rfl, rfl⟩ := haccess
          refine ⟨rfl, ?_⟩
          simp only [Point.left]
          omega
        · simp only [Shared.access, hadvance, Option.bind_some,
            if_neg hlow] at haccess
          split at haccess
          · obtain ⟨rfl, rfl⟩ := Prod.mk.inj (Option.some.inj haccess)
            refine ⟨rfl, ?_⟩
            simp only [Point.left]
            omega
          · obtain ⟨k', -, heq⟩ := Option.map_eq_some_iff.mp haccess
            obtain ⟨rfl, rfl⟩ := Prod.mk.inj heq
            refine ⟨rfl, ?_⟩
            simp only [Point.left]
            omega
  | result => cases haccess
  | idle | faulted => exact hserves.elim
  | present =>
      obtain ⟨new, hnew, -⟩ := hserves
      cases hnew
  | _ => cases hserves

/-! ## Insertions without others -/

/-- The entries from `level` on are the links as they are. -/
def Exact (s : Shared K V) (new : Insertion K V) (arrays : Arrays)
    (level : ℕ) : Prop :=
  ∀ l, level ≤ l → l < new.height → ∃ prev,
    arrays.prev_nodes l = some prev ∧
      arrays.curr_nodes l = some (s.link l prev)

/-- No node but those below the height is on the levels that searches do not
begin at. -/
def Topped (s : Shared K V) (height : ℕ) : Prop :=
  ∀ head, s.my_head_ptr = some head → ∀ l, s.my_max_height ≤ l →
    height ≤ l → s.link l head = none

/-- Nothing has changed since the thread loaded it. -/
def Point.Alone (s : Shared K V) : Point K V → Prop
  | .fill new _ arrays level _ => Exact s new arrays (level + 1) ∧ Topped s 0
  | .compare new _ arrays | .link new _ arrays =>
      Exact s new arrays 0 ∧ Topped s 0
  | .loadMax new arrays => Exact s new arrays 1 ∧ Topped s new.height
  | .raiseMax new arrays max_height =>
      Exact s new arrays 1 ∧ Topped s new.height ∧
        max_height = s.my_max_height
  | .setNext new arrays level | .linkUpper new arrays level =>
      Exact s new arrays level ∧ Topped s 0 ∧ new.height ≤ s.my_max_height
  | .refill _ _ _ _ _ => False
  | _ => Topped s 0

section

omit [LinearOrder K]

theorem Point.Alone.topped {point : Point K V} (h : point.Alone s)
    (hdone : point.done) : Topped s 0 := by
  cases point with
  | idle | inserted | present | result => exact h
  | _ => cases hdone

theorem Exact.of_le {level' : ℕ} (h : Exact s new arrays level)
    (hle : level ≤ level') : Exact s new arrays level' :=
  fun l hl hheight => h l (hle.trans hl) hheight

/-- A store changes no other link. -/
theorem Exact.store (h : Exact s new arrays level) {m l : ℕ}
    (hm : ∀ l', level ≤ l' → l' < new.height → l' = l →
      arrays.prev_nodes l' ≠ some m) (next : Option ℕ) :
    Exact (s.store m l next) new arrays level := by
  intro l' hl hheight
  obtain ⟨prev, hprev, hcurr⟩ := h l' hl hheight
  refine ⟨prev, hprev, ?_⟩
  rw [Shared.link_store_of_ne s next]
  · exact hcurr
  · by_cases hne : prev = m
    · subst hne
      exact .inr fun heq => hm l' hl hheight heq hprev
    · exact .inl hne

theorem Exact.set {arrays' : Arrays} {prev : ℕ}
    (h : Exact s new arrays (level + 1))
    (hset : arrays.set level prev (s.link level prev) = some arrays') :
    Exact s new arrays' level := by
  rw [Arrays.set] at hset
  split at hset
  · obtain rfl := Option.some.inj hset
    intro l hl hheight
    by_cases heq : l = level
    · subst heq
      exact ⟨prev, Function.update_self _ _ _, Function.update_self l _ _⟩
    · obtain ⟨prev', hprev', hcurr'⟩ := h l (by omega) hheight
      exact ⟨prev', (Function.update_of_ne heq _ _).trans hprev',
        (Function.update_of_ne heq _ _).trans hcurr'⟩
  · cases hset

theorem Topped.of_link {height : ℕ} (h : Topped s height)
    (hhead : s'.my_head_ptr = s.my_head_ptr)
    (hheight : s'.my_max_height = s.my_max_height)
    (hlink : ∀ head, s.my_head_ptr = some head → ∀ l, s.my_max_height ≤ l →
      height ≤ l → s'.link l head = s.link l head) : Topped s' height := by
  intro head hsome l hl hle
  rw [hhead] at hsome
  rw [hheight] at hl
  rw [hlink head hsome l hl hle]
  exact h head hsome l hl hle

end

omit [LinearOrder K] in
theorem exact_fill {head : ℕ} {arrays' : Arrays} (htopped : Topped s 0)
    (hhead : s.my_head_ptr = some head)
    (hfill : arrays.fill s.my_max_height new.height head = some arrays') :
    Exact s new arrays' s.my_max_height := by
  intro l hl hheight
  rw [Arrays.fill, if_pos (hl.trans_lt hheight)] at hfill
  split at hfill
  · obtain rfl := Option.some.inj hfill
    refine ⟨head, if_pos ⟨hl, hheight⟩, ?_⟩
    rw [htopped head hhead l hl (Nat.zero_le l)]
    exact if_pos ⟨hl, hheight⟩
  · cases hfill

/-- The previous nodes are not the one that is being inserted. -/
theorem Filled.ne_node (h : Levels s S) (hown : Own s S new level)
    (hfilled : Filled s S new arrays level) {l : ℕ} (hl : level ≤ l)
    (hheight : l < new.height) : arrays.prev_nodes l ≠ some new.node := by
  obtain ⟨prev, curr, hprev, -, hentry⟩ := hfilled l hl hheight
  rintro heq
  obtain rfl := Option.some.inj (hprev.symm.trans heq)
  exact hown.not_at h hl hentry.before.pos

/-- A compare-and-swap succeeds. -/
theorem exchange_of_exact (h : Levels s S) (hown : Own s S new level)
    (hlevel : level < new.height) {prev : ℕ}
    (hprev : At s (S level) prev) :
    s.exchange prev level (s.link level prev) (some new.node) =
      some (s.store prev level (some new.node), true) := by
  have hmax : level < max_level := hlevel.trans_le hown.le
  obtain ⟨node, hmemory, hheight⟩ := h.exists_node hmax hprev
  rw [Shared.exchange, h.next_eq hmax hprev, Option.bind_some, if_pos rfl,
    Shared.set_next, hmemory, Option.bind_some, if_pos hheight]
  rfl

omit [LinearOrder K] in
theorem alone_upper (hexact : Exact s new arrays level) (htopped : Topped s 0)
    (hheight : new.height ≤ s.my_max_height) :
    (Point.upper new arrays level).Alone s := by
  rw [Point.upper]
  split
  · exact ⟨hexact, htopped, hheight⟩
  · exact htopped

theorem left_upper (new : Insertion K V) (arrays : Arrays) {level : ℕ}
    (hle : level ≤ new.height) :
    (Point.upper new arrays level).left size s =
      2 * (new.height - level) + 1 := by
  rw [Point.upper]
  split
  · rfl
  · obtain rfl : level = new.height := by omega
    rw [Nat.sub_self]
    rfl

/-- What an access of an undisturbed insertion leads to. -/
structure Shrinks (size : ℕ) (s : Shared K V) (point : Point K V)
    (s' : Shared K V) (point' : Point K V) : Prop where
  alone : point'.Alone s'
  left : point'.left size s' < point.left size s

section Alone

variable {point' : Point K V} (h : Levels s S)
include h

omit h in
theorem shrinks_casHead {new_head : ℕ}
    (hok : (Point.casHead new new_head).Ok s S) (htopped : Topped s 0)
    (haccess : s.access (.casHead new new_head) = some (s', point')) :
    Shrinks size s (.casHead new new_head) s' point' := by
  obtain ⟨-, hspare⟩ := hok
  rw [Shared.access] at haccess
  split at haccess
  · obtain ⟨rfl, rfl⟩ := Prod.mk.inj (Option.some.inj haccess)
    refine ⟨?_, by simp only [Point.left]; omega⟩
    rintro head ⟨⟩ l - -
    exact hspare.link l
  · obtain ⟨rfl, rfl⟩ := Prod.mk.inj (Option.some.inj haccess)
    refine ⟨?_, by simp only [Point.left]; omega⟩
    refine Topped.of_link htopped rfl rfl ?_
    intro head hhead l _ _
    refine Shared.link_put_of_ne ?_ _
    rintro rfl
    exact hspare.unused 0 (.inl hhead)

theorem shrinks_loadHeight {head : ℕ} (hsize : (S 0).ncard ≤ size)
    (hok : (Point.loadHeight new head arrays).Ok s S) (htopped : Topped s 0)
    (haccess : s.access (.loadHeight new head arrays) = some (s', point')) :
    Shrinks size s (.loadHeight new head arrays) s' point' := by
  obtain ⟨hown, hhead⟩ := hok
  obtain ⟨arrays', hfill, heq⟩ := Option.map_eq_some_iff.mp haccess
  have hexact := exact_fill htopped hhead hfill
  have hheight := h.height
  have hahead := ahead_le h new.key head
  split at heq
  · next hpos =>
      obtain ⟨rfl, rfl⟩ := Prod.mk.inj heq
      refine ⟨⟨?_, htopped⟩, by simp only [Point.left]; omega⟩
      rw [Nat.sub_add_cancel hpos]
      exact hexact
  · next hzero =>
      obtain ⟨rfl, rfl⟩ := Prod.mk.inj heq
      obtain hzero : s.my_max_height = 0 := by omega
      rw [hzero] at hexact
      exact ⟨⟨hexact, htopped⟩, by simp only [Point.left]; omega⟩

theorem shrinks_fill {head prev : ℕ}
    (hok : (Point.fill new head arrays level prev).Ok s S)
    (halone : (Point.fill new head arrays level prev).Alone s)
    (haccess : s.access (.fill new head arrays level prev) =
      some (s', point')) :
    Shrinks size s (.fill new head arrays level prev) s' point' := by
  obtain ⟨hown, hhead, hlevel, hpos, hbefore, hfilled⟩ := hok
  obtain ⟨hexact, htopped⟩ := halone
  rcases h.advance_spec hlevel hbefore with
    ⟨n, hadvance, hn, hlink, hlt⟩ | ⟨hadvance, hafter⟩
  · simp only [Shared.access, hadvance, Option.bind_some,
      Option.some.injEq, Prod.mk.injEq] at haccess
    obtain ⟨rfl, rfl⟩ := haccess
    have hless := ahead_lt_of_advance h hlevel hbefore hn hlink hlt
    exact ⟨⟨hexact, htopped⟩, by simp only [Point.left]; omega⟩
  · obtain ⟨arrays', hset⟩ :=
      exists_set hlevel arrays prev (s.link level prev)
    have hexact' := hexact.set hset
    by_cases hlow : 0 < level
    · simp only [Shared.access, hadvance, Option.bind_some, hset,
        Option.map_some, if_pos hlow, Option.some.injEq,
        Prod.mk.injEq] at haccess
      obtain ⟨rfl, rfl⟩ := haccess
      refine ⟨⟨?_, htopped⟩, by simp only [Point.left]; omega⟩
      rw [Nat.sub_add_cancel hlow]
      exact hexact'
    · obtain rfl : level = 0 := by omega
      simp only [Shared.access, hadvance, Option.bind_some, hset,
        Option.map_some, if_neg hlow, Option.some.injEq,
        Prod.mk.injEq] at haccess
      obtain ⟨rfl, rfl⟩ := haccess
      exact ⟨⟨hexact', htopped⟩, by simp only [Point.left]; omega⟩

theorem shrinks_compare {head : ℕ}
    (hok : (Point.compare new head arrays).Ok s S)
    (halone : (Point.compare new head arrays).Alone s)
    (haccess : s.access (.compare new head arrays) = some (s', point')) :
    Shrinks size s (.compare new head arrays) s' point' := by
  obtain ⟨hown, hhead, hfilled, -⟩ := hok
  obtain ⟨hexact, htopped⟩ := halone
  have hne : ∀ head, s.my_head_ptr = some head → head ≠ new.node := by
    rintro head hhead rfl
    exact hown.ne_head h hhead
  obtain ⟨next, -, haccess⟩ := Option.bind_eq_some_iff.mp haccess
  obtain ⟨found, -, haccess⟩ := Option.bind_eq_some_iff.mp haccess
  split at haccess
  · obtain ⟨n, -, heq⟩ := Option.map_eq_some_iff.mp haccess
    obtain ⟨rfl, rfl⟩ := Prod.mk.inj heq
    refine ⟨?_, by simp only [Point.left]; omega⟩
    exact htopped.of_link rfl rfl fun head hhead l _ _ =>
      Shared.link_put_of_ne (hne head hhead) _
  · rw [hown.set_next hown.pos] at haccess
    obtain ⟨rfl, rfl⟩ := Prod.mk.inj (Option.some.inj haccess)
    refine ⟨⟨?_, ?_⟩, by simp only [Point.left]; omega⟩
    · exact hexact.store (fun l hl hlt _ => hfilled.ne_node h hown hl hlt) next
    · exact htopped.of_link rfl rfl fun head hhead l _ _ =>
        Shared.link_store_of_ne s next (.inl (hne head hhead))

theorem shrinks_link {head : ℕ} (hok : (Point.link new head arrays).Ok s S)
    (halone : (Point.link new head arrays).Alone s)
    (haccess : s.access (.link new head arrays) = some (s', point')) :
    Shrinks size s (.link new head arrays) s' point' := by
  obtain ⟨hown, hhead, hfilled, -⟩ := hok
  obtain ⟨hexact, htopped⟩ := halone
  obtain ⟨prev, hprev, hcurr⟩ := hexact 0 le_rfl hown.pos
  obtain ⟨prev', _, hprev', -, hentry⟩ := hfilled 0 le_rfl hown.pos
  obtain rfl := Option.some.inj (hprev.symm.trans hprev')
  have hexchange := exchange_of_exact h hown hown.pos hentry.before.pos
  simp only [Shared.access, hprev, hcurr, Option.bind_some, hexchange,
    Option.map_some, if_true, Option.some.injEq, Prod.mk.injEq] at haccess
  obtain ⟨rfl, rfl⟩ := haccess
  refine ⟨⟨?_, ?_⟩, by simp only [Point.left]; omega⟩
  · exact (hexact.of_le (Nat.zero_le 1)).store (fun l hl _ heq => by omega) _
  · intro head hsome l hl hle
    rw [Shared.link_store_of_ne s _ (.inr (by have := hown.pos; omega))]
    exact htopped head hsome l hl (Nat.zero_le l)

omit h in
theorem shrinks_raiseMax {max_height : ℕ}
    (hok : (Point.raiseMax new arrays max_height).Ok s S)
    (halone : (Point.raiseMax new arrays max_height).Alone s)
    (haccess : s.access (.raiseMax new arrays max_height) =
      some (s', point')) :
    Shrinks size s (.raiseMax new arrays max_height) s' point' := by
  obtain ⟨hown, -⟩ := hok
  obtain ⟨hexact, htopped, rfl⟩ := halone
  have hpos := hown.pos
  rw [Shared.access] at haccess
  split at haccess
  · next henough =>
      obtain ⟨rfl, rfl⟩ := Prod.mk.inj (Option.some.inj haccess)
      refine ⟨alone_upper hexact ?_ henough, ?_⟩
      · exact fun head hhead l hl _ =>
          htopped head hhead l hl (henough.trans hl)
      · rw [left_upper new arrays hpos]
        simp only [Point.left]
        omega
  · next hlow =>
      rw [if_pos rfl] at haccess
      obtain ⟨rfl, rfl⟩ := Prod.mk.inj (Option.some.inj haccess)
      refine ⟨alone_upper hexact ?_ le_rfl, ?_⟩
      · intro head hhead l hl _
        have hl : new.height ≤ l := hl
        exact htopped head hhead l (by omega) hl
      · rw [left_upper new arrays hpos]
        simp only [Point.left]
        omega

theorem shrinks_setNext (hok : (Point.setNext new arrays level).Ok s S)
    (halone : (Point.setNext new arrays level).Alone s)
    (haccess : s.access (.setNext new arrays level) = some (s', point')) :
    Shrinks size s (.setNext new arrays level) s' point' := by
  obtain ⟨hown, hpos, hlt, hheight, hfilled⟩ := hok
  obtain ⟨hexact, htopped, htop⟩ := halone
  obtain ⟨next, -, haccess⟩ := Option.bind_eq_some_iff.mp haccess
  rw [hown.set_next hlt] at haccess
  obtain ⟨rfl, rfl⟩ := Prod.mk.inj (Option.some.inj haccess)
  refine ⟨⟨?_, ?_, htop⟩, by simp only [Point.left]; omega⟩
  · exact hexact.store (fun l hl hlt _ => hfilled.ne_node h hown hl hlt) next
  · refine htopped.of_link rfl rfl fun head hhead l _ _ =>
      Shared.link_store_of_ne s next (.inl ?_)
    rintro rfl
    exact hown.ne_head h hhead

theorem shrinks_linkUpper (hok : (Point.linkUpper new arrays level).Ok s S)
    (halone : (Point.linkUpper new arrays level).Alone s)
    (haccess : s.access (.linkUpper new arrays level) = some (s', point')) :
    Shrinks size s (.linkUpper new arrays level) s' point' := by
  obtain ⟨hown, hpos, hlt, hheight, hfilled, -⟩ := hok
  obtain ⟨hexact, htopped, htop⟩ := halone
  obtain ⟨prev, hprev, hcurr⟩ := hexact level le_rfl hlt
  obtain ⟨prev', _, hprev', -, hentry⟩ := hfilled level le_rfl hlt
  obtain rfl := Option.some.inj (hprev.symm.trans hprev')
  have hexchange := exchange_of_exact h hown hlt hentry.before.pos
  simp only [Shared.access, hprev, hcurr, Option.bind_some, hexchange,
    Option.map_some, if_true, Option.some.injEq, Prod.mk.injEq] at haccess
  obtain ⟨rfl, rfl⟩ := haccess
  refine ⟨alone_upper ?_ ?_ htop, ?_⟩
  · exact (hexact.of_le (Nat.le_succ level)).store
      (fun l hl _ heq => by omega) _
  · exact htopped.of_link rfl rfl fun head hhead l hl _ =>
      Shared.link_store_of_ne s _ (.inr (by omega))
  · rw [left_upper new arrays hlt]
    simp only [Point.left]
    omega

/-- An access of an insertion that nobody disturbs leaves less to do. -/
theorem shrinks_of_alone (hsize : (S 0).ncard ≤ size) {point : Point K V}
    (hok : point.Ok s S) (halone : point.Alone s)
    (hserves : point.Serves (.insertion new))
    (haccess : s.access point = some (s', point')) :
    Shrinks size s point s' point' := by
  cases point with
  | casHead new new_head => exact shrinks_casHead hok halone haccess
  | loadHeight new head arrays =>
      exact shrinks_loadHeight h hsize hok halone haccess
  | fill new head arrays level prev => exact shrinks_fill h hok halone haccess
  | compare new head arrays => exact shrinks_compare h hok halone haccess
  | link new head arrays => exact shrinks_link h hok halone haccess
  | loadMax new arrays =>
      obtain ⟨rfl, rfl⟩ := Prod.mk.inj (Option.some.inj haccess)
      exact ⟨⟨halone.1, halone.2, rfl⟩, by simp only [Point.left]; omega⟩
  | raiseMax new arrays max_height =>
      exact shrinks_raiseMax hok halone haccess
  | setNext new arrays level => exact shrinks_setNext h hok halone haccess
  | linkUpper new arrays level => exact shrinks_linkUpper h hok halone haccess
  | refill => exact halone.elim
  | count new =>
      obtain ⟨rfl, rfl⟩ := Prod.mk.inj (Option.some.inj haccess)
      exact ⟨halone, by simp only [Point.left]; omega⟩
  | getHead | inserted | present => cases haccess
  | idle | faulted => exact hserves.elim
  | _ => cases hserves

end Alone

end Tbb
