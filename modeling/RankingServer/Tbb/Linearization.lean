import RankingServer.Tbb.Insertion

/-!
# What the threads see of the map

In every run of any number of threads, no access goes wrong, and each level of
the list is an ascending sequence of nodes that are also on the levels below.

To the callers the map is a set of keys that only grows.  A key belongs to it
from the time on at which its node can be found, which is not yet the case when
the node is linked on the lowest level: as long as the height of the list is
zero, nobody looks at that level.  A search that returns nothing began before
the key was in the set, one that returns a node ended after it, and of all
insertions of a key exactly the one whose node is in the set succeeds.
-/

namespace Tbb

open Transition SortedLinks

universe u v w

variable {T : Type w} {K : Type u} {V : Type v} [DecidableEq T] [LinearOrder K]
  {s s' : State T K V} {S S' : ℕ → Set ℕ} {level n : ℕ} {key : K} {t : T}
  {e : Event T K V} {es : List (Event T K V)}

/-! ## What a step can do -/

/-- The accesses of a thread. -/
inductive Access (s : State T K V) (t : T) : State T K V → Prop
  | getHead {new : Insertion K V} {head : ℕ} : s.points t = .getHead new →
      s.shared.my_head_ptr = some head →
        Access s t (s.move t s.shared
          (.loadHeight new head .uninitialized))
  | createHead {new : Insertion K V} {address : ℕ} :
      s.points t = .getHead new → s.shared.my_head_ptr = none →
        s.shared.memory address = none →
        Access s t (s.move t
          (s.shared.put address (some (Node.create none max_level)))
          (.casHead new address))
  | access {shared : Shared K V} {point : Point K V} :
      (s.points t).done = false → (∀ new, s.points t ≠ .getHead new) →
        s.shared.access (s.points t) = some (shared, point) →
        Access s t (s.move t shared point)
  | fault : (s.points t).done = false → (∀ new, s.points t ≠ .getHead new) →
      s.shared.access (s.points t) = none →
        Access s t (s.move t s.shared .faulted)

/-- The steps of a thread. -/
inductive Effect (s : State T K V) (t : T) : State T K V → Prop
  | insert {key : K} {value : V} {address random : ℕ} :
      (s.points t).done → s.shared.memory address = none →
        IsMinstdRand random →
        Effect s t (s.move t
          (s.shared.put address
            (some (Node.create (some (key, value)) (randomLevel random))))
          (.getHead ⟨address, key, value, randomLevel random⟩))
  | find {key : K} : (s.points t).done →
      Effect s t (s.move t s.shared (.findHead key))
  | access {s' : State T K V} : Access s t s' → Effect s t s'

/-- The thread of an event. -/
def Event.thread : Event T K V → T
  | .insert t _ _ _ _ | .find t _ | .access t _ => t

theorem Access.done_eq_false (h : Access s t s') :
    (s.points t).done = false := by
  cases h with
  | getHead hpoint | createHead hpoint =>
      rw [hpoint]
      rfl
  | access hdone | fault hdone => exact hdone

theorem access_of_access {address : ℕ} (h : s.access t address = some s') :
    Access s t s' := by
  rw [State.access] at h
  split at h
  · next hpoint hhead =>
      obtain rfl := Option.some.inj h
      exact .getHead hpoint hhead
  · next hpoint hhead =>
      split at h
      · next hfresh =>
          obtain rfl := Option.some.inj h
          exact .createHead hpoint hhead (Option.isNone_iff_eq_none.mp hfresh)
      · cases h
  · cases h
  · next _ hsome hnone =>
      have hhead : ∀ new, s.points t ≠ .getHead new := by
        intro new hpoint
        cases hptr : s.shared.my_head_ptr with
        | none => exact hnone new hpoint hptr
        | some head => exact hsome new head hpoint hptr
      split at h
      · cases h
      · next hdone =>
          rw [Bool.not_eq_true] at hdone
          split at h
          · next haccess =>
              obtain rfl := Option.some.inj h
              exact .fault hdone hhead haccess
          · next haccess =>
              obtain rfl := Option.some.inj h
              exact .access hdone hhead haccess

theorem effect_of_step (h : step s e = some s') : Effect s e.thread s' := by
  cases e with
  | insert t key value address random =>
      rw [step] at h
      split at h
      · next hcond =>
          obtain ⟨hdone, hfresh, hrandom⟩ := hcond
          obtain rfl := Option.some.inj h
          exact .insert hdone (Option.isNone_iff_eq_none.mp hfresh) hrandom
      · cases h
  | find t key =>
      rw [step] at h
      split at h
      · next hdone =>
          obtain rfl := Option.some.inj h
          exact .find hdone
      · cases h
  | access t address => exact .access (access_of_access h)

/-! ## The invariant -/

/-- The levels are in order, and each thread knows what it should and has its
nodes for itself. -/
structure Inv (s : State T K V) (S : ℕ → Set ℕ) : Prop where
  levels : Levels s.shared S
  ok : ∀ t, (s.points t).Ok s.shared S
  disjoint : ∀ t u, t ≠ u → ∀ n ∈ (s.points t).owned, n ∉ (s.points u).owned

omit [DecidableEq T] in
theorem inv_initial (h : Initial s) : Inv s fun _ => ∅ := by
  obtain ⟨shared, points⟩ := s
  obtain ⟨rfl, hpoints⟩ := h
  refine ⟨?_, ?_, ?_⟩
  · refine ⟨fun _ _ => rfl, ?_, ?_, ?_, antitone_const, Set.finite_empty,
      Nat.zero_le _⟩
    · rintro head ⟨⟩
    · rintro head ⟨⟩
    · rintro level n ⟨⟩
  · intro t
    rw [hpoints t]
    trivial
  · intro t u _ n hn
    rw [hpoints t] at hn
    cases hn

theorem Inv.move (hs : Inv s S) {mine : List ℕ} {shared : Shared K V}
    {point : Point K V} (hlevels : Levels shared S') (hok : point.Ok shared S')
    (hkeeps : Keeps mine s.shared S shared S')
    (hmine : ∀ u, u ≠ t → ∀ n ∈ (s.points u).owned, n ∉ mine)
    (howned : ∀ u, u ≠ t → ∀ n ∈ (s.points u).owned, n ∉ point.owned) :
    Inv (s.move t shared point) S' := by
  refine ⟨hlevels, ?_, ?_⟩
  · intro u
    by_cases hu : u = t
    · subst hu
      rw [State.points_move_self]
      exact hok
    · rw [State.points_move_of_ne s hu]
      exact hkeeps.ok hs.levels (hs.ok u) (hmine u hu)
  · intro u v huv n hn
    by_cases hu : u = t
    · subst hu
      rw [State.points_move_self] at hn
      rw [State.points_move_of_ne s huv.symm]
      exact fun hv => howned v huv.symm n hv hn
    · rw [State.points_move_of_ne s hu] at hn
      by_cases hv : v = t
      · subst hv
        rw [State.points_move_self]
        exact howned u hu n hn
      · rw [State.points_move_of_ne s hv]
        exact hs.disjoint u v huv n hn

omit [DecidableEq T] in
theorem Inv.ne_of_fresh (hs : Inv s S) {address : ℕ}
    (hfresh : s.shared.memory address = none) (hn : n ∈ (s.points t).owned) :
    n ≠ address := by
  rintro rfl
  obtain ⟨node, hmemory⟩ := (hs.ok t).exists_node hn
  rw [hfresh] at hmemory
  cases hmemory

theorem Levels.not_at_of_fresh {shared : Shared K V} (h : Levels shared S)
    (hfresh : shared.memory n = none) (level : ℕ) :
    ¬ At shared (S level) n := by
  intro hat
  obtain ⟨node, hmemory, -⟩ := h.exists_node (by decide)
    (hat.imp_right fun hn => h.nested (Nat.zero_le level) hn)
  rw [hfresh] at hmemory
  cases hmemory

theorem Inv.access (hs : Inv s S) (h : Access s t s') :
    ∃ S', Inv s' S' ∧ Keeps (s.points t).owned s.shared S s'.shared S' ∧
      Linked S (s.points t) s'.shared S' := by
  have hown : ∀ u, u ≠ t → ∀ n ∈ (s.points u).owned,
      n ∉ (s.points t).owned :=
    fun u hu => hs.disjoint u t hu
  cases h with
  | @getHead new head hpoint hhead =>
      have hok := hs.ok t
      rw [hpoint] at hok hown
      exact ⟨S, hs.move hs.levels ⟨hok, hhead⟩ (.refl [] _ _) (by simp) hown,
        .refl _ _ _, .inl rfl⟩
  | @createHead new address hpoint hhead hfresh =>
      have hkeeps (mine : List ℕ) : Keeps mine s.shared S
          (s.shared.put address (some (Node.create none max_level))) S :=
        keeps_create mine hfresh none max_level
      have hok := hs.ok t
      rw [hpoint] at hok hown
      refine ⟨S, hs.move (levels_put hs.levels
        (hs.levels.not_at_of_fresh hfresh) _) ?_ (hkeeps []) (by simp) ?_,
        hkeeps _, .inl rfl⟩
      · refine ⟨(hkeeps []).own hok (by simp),
          ⟨_, Shared.memory_put_self _ _ _, rfl, rfl⟩, ?_,
          hs.levels.not_at_of_fresh hfresh⟩
        intro level
        rw [Shared.link, Shared.memory_put_self]
        rfl
      · intro u hu n hn
        simp only [Point.owned, List.mem_cons, List.not_mem_nil, or_false,
          not_or]
        exact ⟨by simpa [Point.owned] using hown u hu n hn,
          hs.ne_of_fresh hfresh hn⟩
  | access hdone hhead haccess =>
      obtain ⟨shared', point', S', haccess', houtcome⟩ :=
        succeeds_of_ok hs.levels (hs.ok t) hdone hhead
      obtain ⟨rfl, rfl⟩ := Prod.mk.inj
        (Option.some.inj (haccess.symm.trans haccess'))
      refine ⟨S', hs.move houtcome.levels houtcome.ok houtcome.keeps hown ?_,
        houtcome.keeps, houtcome.linked⟩
      exact fun u hu n hn hpoint => hown u hu n hn (houtcome.owned hpoint)
  | fault hdone hhead haccess =>
      obtain ⟨shared', point', S', haccess', -⟩ :=
        succeeds_of_ok hs.levels (hs.ok t) hdone hhead
      rw [haccess] at haccess'
      cases haccess'

theorem Inv.insert (hs : Inv s S) {value : V} {address random : ℕ}
    (hfresh : s.shared.memory address = none) (hrandom : IsMinstdRand random) :
    Inv (s.move t
        (s.shared.put address
          (some (Node.create (some (key, value)) (randomLevel random))))
        (.getHead ⟨address, key, value, randomLevel random⟩)) S := by
  have hunlinked := hs.levels.not_at_of_fresh hfresh
  refine hs.move (levels_put hs.levels hunlinked _) ?_
    (keeps_create [] hfresh _ _) (by simp) ?_
  · refine ⟨⟨_, Shared.memory_put_self _ _ _, rfl, rfl⟩, ?_,
      randomLevel_pos hrandom, (randomLevel_lt random).le⟩
    intro l
    exact iff_of_false (fun hl => hunlinked l (.inr hl)) (Nat.not_lt_zero l)
  · intro u _ n hn
    simpa [Point.owned] using hs.ne_of_fresh hfresh hn

theorem Inv.find (hs : Inv s S) (key : K) :
    Inv (s.move t s.shared (.findHead key)) S :=
  hs.move hs.levels trivial (.refl [] _ _) (by simp) (by simp [Point.owned])

/-- A step preserves the invariant and keeps what was found. -/
theorem Inv.effect (hs : Inv s S) (h : Effect s t s') :
    ∃ S', Inv s' S' ∧ Keeps (s.points t).owned s.shared S s'.shared S' := by
  cases h with
  | insert hdone hfresh hrandom =>
      exact ⟨S, hs.insert hfresh hrandom, keeps_create _ hfresh _ _⟩
  | find hdone => exact ⟨S, hs.find _, .refl _ _ _⟩
  | access h =>
      obtain ⟨S', hs', hkeeps, -⟩ := hs.access h
      exact ⟨S', hs', hkeeps⟩

theorem exists_inv (h : Reachable step Initial unguarded s) :
    ∃ S, Inv s S := by
  induction h with
  | start hinit => exact ⟨_, inv_initial hinit⟩
  | next _ _ hstep ih =>
      obtain ⟨S, hs⟩ := ih
      obtain ⟨S', hs', -⟩ := hs.effect (effect_of_step hstep)
      exact ⟨S', hs'⟩

/-! ## Every run -/

/-- No access went wrong, and each level is an ascending sequence of nodes that
reach up to it, all of which are also on the level below. -/
structure Sound (s : State T K V) : Prop where
  points : ∀ t, s.points t ≠ .faulted
  levels : ∀ head, s.shared.my_head_ptr = some head → ∀ level < max_level,
    ∃ ns, Path (s.shared.link level) head ns ∧
      ns.Pairwise (fun n m => s.shared.rank n < s.shared.rank m) ∧
      (∀ n ∈ ns, ∃ node, s.shared.memory n = some node ∧
        node.my_value.isSome ∧ level < node.my_height) ∧
      ∀ below < level, ∃ ms, Path (s.shared.link below) head ms ∧ ns ⊆ ms

omit [DecidableEq T] in
theorem Inv.sound (hs : Inv s S) : Sound s := by
  constructor
  · intro t hpoint
    have hok := hs.ok t
    rw [hpoint] at hok
    exact hok
  · intro head hhead level hlevel
    have hpath : ∀ level < max_level, ∃ ns, Path (s.shared.link level) head ns ∧
        ns.Pairwise (fun n m => s.shared.rank n < s.shared.rank m) ∧
          ∀ n, n ∈ ns ↔ n ∈ S level := by
      intro level hlevel
      refine (hs.levels.links head hhead level hlevel).exists_path ?_
      exact hs.levels.finite.subset (hs.levels.nested (Nat.zero_le level))
    obtain ⟨ns, hns, hsorted, hmem⟩ := hpath level hlevel
    refine ⟨ns, hns, hsorted, ?_, ?_⟩
    · exact fun n hn => hs.levels.nodes level n ((hmem n).mp hn)
    · intro below hbelow
      obtain ⟨ms, hms, -, hmem'⟩ := hpath below (hbelow.trans hlevel)
      refine ⟨ms, hms, ?_⟩
      intro n hn
      exact (hmem' n).mpr (hs.levels.nested hbelow.le ((hmem n).mp hn))

/-- Whatever the threads do, no access goes wrong, and the levels are ascending
sequences of nodes, each a part of the one below. -/
theorem ordered_of_reachable (h : Reachable step Initial unguarded s) :
    Sound s := by
  obtain ⟨S, hs⟩ := exists_inv h
  exact hs.sound

/-- A map that two threads share, before either uses it. -/
def unused : State Bool ℤ ℕ := ⟨.empty, fun _ => .idle⟩

theorem reachable_unused : Reachable step Initial unguarded unused :=
  .start ⟨rfl, fun _ => rfl⟩

/-- The other thread inserts the same key while the first one is about to, so
that both create a head and both look for the place of the key. -/
def race : List (Event Bool ℤ ℕ) :=
  (List.replicate 10 [.access false 30, .access true 31]).flatten ++
    List.replicate 2 (.access true 31)

theorem ordered_of_reachable_race :
    ∃ s, run step unused
        (.insert false 5 50 10 1073741822 ::
          .insert true 5 51 20 1073741822 :: race) = some s ∧
      s.shared.my_max_height = 2 ∧ Sound s := by
  have hruns : ∃ s ∈ run step unused
      (.insert false 5 50 10 1073741822 ::
        .insert true 5 51 20 1073741822 :: race),
      s.shared.my_max_height = 2 := by
    decide +kernel
  obtain ⟨s, hrun, hheight⟩ := hruns
  exact ⟨s, hrun, hheight,
    ordered_of_reachable (.of_unguarded_run reachable_unused hrun)⟩

/-! ## The set of the keys -/

/-- The node is on the lowest level. -/
def Listed (s : Shared K V) (n : ℕ) : Prop :=
  ∃ head ns, s.my_head_ptr = some head ∧ Path (s.link 0) head ns ∧ n ∈ ns

theorem listed_iff {shared : Shared K V} (h : Levels shared S) :
    Listed shared n ↔ n ∈ S 0 := by
  constructor
  · rintro ⟨head, ns, hhead, hpath, hn⟩
    obtain ⟨ms, hms, -, hmem⟩ :=
      (h.links head hhead 0 (by decide)).exists_path h.finite
    obtain rfl := hpath.unique hms
    exact (hmem n).mp hn
  · intro hn
    obtain ⟨head, hhead, -⟩ := h.exists_head (.inr hn)
    obtain ⟨ms, hms, -, hmem⟩ :=
      (h.links head hhead 0 (by decide)).exists_path h.finite
    exact ⟨head, ms, hhead, hms, (hmem n).mpr hn⟩

/-- The node is on the lowest level, and searches look there. -/
structure Contains (s : Shared K V) (key : K) (n : ℕ) : Prop where
  listed : Listed s n
  key : s.get_key n = some key
  height : 0 < s.my_max_height

theorem contains_iff {shared : Shared K V} (h : Levels shared S) :
    Contains shared key n ↔ Holds shared S key n := by
  constructor
  · rintro ⟨hlisted, hkey, hheight⟩
    exact ⟨(listed_iff h).mp hlisted, Shared.rank_of_get_key hkey, hheight⟩
  · rintro ⟨hn, hrank, hheight⟩
    obtain ⟨k, hk⟩ := h.exists_key hn
    obtain rfl :=
      WithBot.coe_inj.mp ((Shared.rank_of_get_key hk).symm.trans hrank)
    exact ⟨(listed_iff h).mpr hn, hk, hheight⟩

theorem Inv.of_run (hs : Inv s S) (hrun : run step s es = some s') :
    ∃ S', Inv s' S' ∧ ∀ key n, Holds s.shared S key n →
      Holds s'.shared S' key n := by
  induction es generalizing s S with
  | nil =>
      obtain rfl := Option.some.inj hrun
      exact ⟨S, hs, fun _ _ h => h⟩
  | cons e es ih =>
      rw [run_cons, Option.bind_eq_some_iff] at hrun
      obtain ⟨s₁, hstep, hrest⟩ := hrun
      obtain ⟨S₁, hs₁, hkeeps⟩ := hs.effect (effect_of_step hstep)
      obtain ⟨S', hs', hholds⟩ := ih hs₁ hrest
      exact ⟨S', hs', fun key n hn =>
        hholds key n (hkeeps.holds hs.levels hn)⟩

/-! ## One call in a run -/

/-- The event begins another call of the thread. -/
def Event.begins (t : T) : Event T K V → Prop
  | .insert u _ _ _ _ | .find u _ => u = t
  | .access _ _ => False

theorem Effect.point_of_ne {u : T} (h : Effect s u s') (hu : t ≠ u) :
    s'.points t = s.points t := by
  cases h with
  | insert | find => exact Function.update_of_ne hu _ _
  | access h => cases h <;> exact Function.update_of_ne hu _ _

/-- A property of the point that the accesses of the thread preserve, where
`known` is something that no thread takes back. -/
structure Lasting (known : Shared K V → (ℕ → Set ℕ) → Prop)
    (property : Point K V → Prop) : Prop where
  keeps : ∀ {mine s S s' S'}, Levels s S → Keeps mine s S s' S' →
    known s S → known s' S'
  getHead : ∀ {new head}, property (.getHead new) →
    property (.loadHeight new head .uninitialized)
  createHead : ∀ {new address}, property (.getHead new) →
    property (.casHead new address)
  access : ∀ {s S s'} {point point' : Point K V}, Levels s S → point.Ok s S →
    known s S →
    s.access point = some (s', point') → property point → property point'

/-- Until the thread begins another call. -/
theorem Lasting.of_run {known : Shared K V → (ℕ → Set ℕ) → Prop}
    {property : Point K V → Prop} (h : Lasting known property) (hs : Inv s S)
    (hknown : known s.shared S) (hpoint : property (s.points t))
    (hrun : run step s es = some s') (hes : ∀ e ∈ es, ¬ e.begins t) :
    property (s'.points t) := by
  induction es generalizing s S with
  | nil =>
      obtain rfl := Option.some.inj hrun
      exact hpoint
  | cons e es ih =>
      rw [run_cons, Option.bind_eq_some_iff] at hrun
      obtain ⟨s₁, hstep, hrest⟩ := hrun
      obtain ⟨he, hes⟩ := List.forall_mem_cons.mp hes
      have heffect := effect_of_step hstep
      obtain ⟨S₁, hs₁, hkeeps⟩ := hs.effect heffect
      refine ih hs₁ (h.keeps hs.levels hkeeps hknown) ?_ hrest hes
      by_cases ht : t = e.thread
      · cases e with
        | insert | find => exact absurd ht.symm he
        | access u address =>
            obtain rfl : t = u := ht
            cases access_of_access hstep with
            | getHead hget hhead =>
                rw [hget] at hpoint
                rw [State.points_move_self]
                exact h.getHead hpoint
            | createHead hget hhead hfresh =>
                rw [hget] at hpoint
                rw [State.points_move_self]
                exact h.createHead hpoint
            | access hdone hhead haccess =>
                rw [State.points_move_self]
                exact h.access hs.levels (hs.ok t) hknown haccess hpoint
            | fault hdone hhead haccess =>
                have hok := hs₁.ok t
                rw [State.points_move_self] at hok
                exact hok.elim
      · rw [heffect.point_of_ne ht]
        exact hpoint

omit [LinearOrder K] in
theorem Point.Serves.unique {point : Point K V} {call call' : Call K V}
    (h : point.Serves call) (h' : point.Serves call')
    (hdone : point.done = false) : call = call' := by
  cases point with
  | idle | inserted | present | result => cases hdone
  | faulted => exact h.elim
  | _ => exact Eq.trans h (Eq.symm h')

theorem lasting_serves (call : Call K V) :
    Lasting (V := V) (fun _ _ => True) (Point.Serves call) := by
  refine ⟨fun _ _ _ => trivial, fun h => h, fun h => h, ?_⟩
  intro s S s' point point' hs hok _ haccess hserves
  cases hdone : point.done with
  | true => cases point <;> cases hdone <;> cases haccess
  | false =>
      have hhead : ∀ m, point ≠ .getHead m := by
        rintro m rfl
        cases haccess
      obtain ⟨s₁, point₁, S₁, haccess₁, houtcome⟩ :=
        succeeds_of_ok hs hok hdone hhead
      obtain ⟨-, rfl⟩ := Prod.mk.inj
        (Option.some.inj (haccess.symm.trans haccess₁))
      exact houtcome.serves call hserves

/-! ### Searches -/

/-- The search for the key that comes back with the node. -/
def Point.Finds (key : K) (n : ℕ) : Point K V → Prop
  | .findHead k | .findHeight k _ | .findAt k _ _ => k = key
  | .result k node => k = key ∧ node = some n
  | _ => False

theorem Levels.link_eq {shared : Shared K V} (h : Levels shared S)
    (hlevel : level < max_level) {prev : ℕ}
    (hbefore : Before shared (S level) key prev) (hn : n ∈ S level)
    (hrank : shared.rank n = key)
    (hafter : ∀ m ∈ shared.link level prev, m ∈ S level ∧
      key ≤ shared.rank m) : shared.link level prev = some n := by
  obtain ⟨head, hhead, hmem⟩ := h.exists_head hbefore.pos
  refine (h.links head hhead level hlevel).eq_of_stop hmem hn
    (hrank.symm ▸ hbefore.lt) ?_
  intro c hc
  rw [hrank]
  exact (hafter c hc).2

theorem lasting_finds (key : K) (n : ℕ) :
    Lasting (V := V) (fun s S => Holds s S key n) (Point.Finds key n) := by
  refine ⟨fun hs hkeeps h => hkeeps.holds hs h, fun h => h.elim,
    fun h => h.elim, ?_⟩
  intro s S s' point point' hs hok hn haccess hfinds
  cases point with
  | findHead k =>
      obtain rfl : k = key := hfinds
      obtain ⟨head, hhead, -⟩ := hs.exists_head (.inr hn.mem)
      rw [Shared.access, hhead] at haccess
      obtain ⟨-, rfl⟩ := Prod.mk.inj (Option.some.inj haccess)
      rfl
  | findHeight k head =>
      obtain rfl : k = key := hfinds
      rw [Shared.access, if_pos hn.height] at haccess
      obtain ⟨-, rfl⟩ := Prod.mk.inj (Option.some.inj haccess)
      rfl
  | findAt k level prev =>
      obtain rfl : k = key := hfinds
      obtain ⟨hlevel, -, hbefore⟩ := hok
      rw [Shared.access] at haccess
      rcases hs.advance_spec hlevel hbefore with
        ⟨m, hadvance, -⟩ | ⟨hadvance, hafter⟩
      · rw [hadvance] at haccess
        obtain ⟨-, rfl⟩ := Prod.mk.inj (Option.some.inj haccess)
        rfl
      · by_cases hlow : 0 < level
        · simp only [hadvance, Option.bind_some, if_pos hlow] at haccess
          obtain ⟨-, rfl⟩ := Prod.mk.inj (Option.some.inj haccess)
          rfl
        · obtain rfl : level = 0 := by omega
          obtain ⟨k', hk'⟩ := hs.exists_key hn.mem
          obtain rfl := WithBot.coe_inj.mp
            ((Shared.rank_of_get_key hk').symm.trans hn.rank)
          simp only [hadvance, hs.link_eq hlevel hbefore hn.mem hn.rank hafter,
            Option.bind_some, hk', lt_irrefl, if_false, Option.map_some,
            Option.some.injEq,
            Prod.mk.injEq] at haccess
          exact haccess.2 ▸ ⟨rfl, rfl⟩
  | result => cases haccess
  | _ => exact hfinds.elim

/-! ### Insertions -/

/-- The insertion that comes back with a node that was there before. -/
def Point.Refuses (key : K) (n : ℕ) : Point K V → Prop
  | .getHead new | .casHead new _ | .loadHeight new _ _
  | .fill new _ _ _ _ => new.key = key
  | .compare new _ arrays =>
      new.key = key ∧ arrays.curr_nodes 0 = some (some n)
  | .present k node => k = key ∧ node = n
  | _ => False

theorem lasting_refuses (key : K) (n : ℕ) :
    Lasting (V := V) (fun s S => Holds s S key n) (Point.Refuses key n) := by
  refine ⟨fun hs hkeeps h => hkeeps.holds hs h, fun h => h, fun h => h, ?_⟩
  intro s S s' point point' hs hok hn haccess hrefuses
  cases point with
  | casHead new new_head =>
      rw [Shared.access] at haccess
      split at haccess
      all_goals
        obtain ⟨-, rfl⟩ := Prod.mk.inj (Option.some.inj haccess)
        exact hrefuses
  | loadHeight new head arrays =>
      rw [Shared.access, Option.map_eq_some_iff] at haccess
      obtain ⟨arrays', -, heq⟩ := haccess
      rw [if_pos hn.height] at heq
      obtain ⟨-, rfl⟩ := Prod.mk.inj heq
      exact hrefuses
  | fill new head arrays level prev =>
      obtain rfl : new.key = key := hrefuses
      obtain ⟨-, -, hlevel, -, hbefore, -⟩ := hok
      rw [Shared.access] at haccess
      rcases hs.advance_spec hlevel hbefore with
        ⟨m, hadvance, -⟩ | ⟨hadvance, hafter⟩
      · rw [hadvance] at haccess
        obtain ⟨-, rfl⟩ := Prod.mk.inj (Option.some.inj haccess)
        rfl
      · obtain ⟨arrays', hset⟩ :=
          exists_set hlevel arrays prev (s.link level prev)
        by_cases hlow : 0 < level
        · simp only [hadvance, Option.bind_some, hset, Option.map_some,
            if_pos hlow] at haccess
          obtain ⟨-, rfl⟩ := Prod.mk.inj (Option.some.inj haccess)
          rfl
        · obtain rfl : level = 0 := by omega
          simp only [hadvance, Option.bind_some, hset, Option.map_some,
            if_neg hlow] at haccess
          obtain ⟨-, rfl⟩ := Prod.mk.inj (Option.some.inj haccess)
          rw [hs.link_eq hlevel hbefore hn.mem hn.rank hafter, Arrays.set,
            if_pos hlevel] at hset
          obtain rfl := Option.some.inj hset
          exact ⟨rfl, Function.update_self 0 _ arrays.curr_nodes⟩
  | compare new head arrays =>
      obtain ⟨rfl, hcurr⟩ := hrefuses
      obtain ⟨k, hk⟩ := hs.exists_key hn.mem
      obtain rfl := WithBot.coe_inj.mp
        ((Shared.rank_of_get_key hk).symm.trans hn.rank)
      simp only [Shared.access, hcurr, Shared.found, hk, lt_irrefl,
        decide_false, Bool.not_false, if_true, Option.bind_some,
        Option.map_some, Option.some.injEq, Prod.mk.injEq] at haccess
      exact haccess.2 ▸ ⟨rfl, rfl⟩
  | present => cases haccess
  | getHead => cases haccess
  | _ => exact hrefuses.elim

/-! ### The results -/

omit [DecidableEq T] in
theorem Inv.contains_unique (hs : Inv s S) {m : ℕ}
    (hn : Contains s.shared key n) (hm : Contains s.shared key m) : n = m := by
  have hn := (contains_iff hs.levels).mp hn
  have hm := (contains_iff hs.levels).mp hm
  exact hs.levels.injective (by decide) hn.mem hm.mem
    (hn.rank.trans hm.rank.symm)

/-- A search that finds nothing began when the key was not in the set.  One that
finds a node finds the one with the key, which was in the set at the latest when
the search ended; if it was there when the search began, it is found. -/
theorem search_linearizable {s₁ : State T K V} {k : K} {node : Option ℕ}
    (h : Reachable step Initial unguarded s)
    (hbegin : step s (.find t key) = some s₁)
    (hrun : run step s₁ es = some s') (hes : ∀ e ∈ es, ¬ e.begins t)
    (hresult : s'.points t = .result k node) :
    k = key ∧ (∀ n, Contains s.shared key n → node = some n) ∧
      ∀ n, node = some n → Contains s'.shared key n := by
  obtain ⟨S, hs⟩ := exists_inv h
  obtain ⟨S₁, hs₁, hkeeps⟩ := hs.effect (effect_of_step hbegin)
  have hpoint : s₁.points t = .findHead key := by
    rw [step] at hbegin
    split at hbegin
    · exact Option.some.inj hbegin ▸ s.points_move_self t _ _
    · cases hbegin
  have hserves := (lasting_serves (.search key)).of_run hs₁ trivial
    (hpoint ▸ rfl) hrun hes
  rw [hresult] at hserves
  obtain rfl := Call.search.inj hserves
  refine ⟨rfl, ?_, ?_⟩
  · intro n hn
    have hholds := hkeeps.holds hs.levels ((contains_iff hs.levels).mp hn)
    have hfinds := (lasting_finds key n).of_run hs₁ hholds (hpoint ▸ rfl) hrun
      hes
    rw [hresult] at hfinds
    exact hfinds.2
  · rintro n rfl
    obtain ⟨S', hs', -⟩ := hs₁.of_run hrun
    have hok := hs'.ok t
    rw [hresult] at hok
    exact (contains_iff hs'.levels).mpr (hok n rfl)

instance (t : T) : DecidablePred (Event.begins (K := K) (V := V) t)
  | .insert u _ _ _ _ | .find u _ => inferInstanceAs (Decidable (u = t))
  | .access _ _ => inferInstanceAs (Decidable False)

/-- What a search came back with. -/
def Point.searched : Point K V → Option (K × Option ℕ)
  | .result key node => some (key, node)
  | _ => none

omit [LinearOrder K] in
theorem Point.searched_eq_some {point : Point K V} {node : Option ℕ}
    (h : point.searched = some (key, node)) : point = .result key node := by
  cases point with
  | result => cases h; rfl
  | _ => cases h

/-- Five is in the map when one thread inserts three and the other looks for
five. -/
theorem search_linearizable_race :
    ∃ s s₁ s', run step unused
        (.insert false 5 50 10 1073741822 ::
          List.replicate 10 (.access false 30) ++
            [.insert false 3 51 20 2147483646]) = some s ∧
      step s (.find true 5) = some s₁ ∧
      run step s₁ (List.replicate 4
        [.access false 30, .access true 30]).flatten = some s' ∧
      s'.points true = .result 5 (some 10) ∧ Contains s'.shared 5 10 := by
  have hruns : ∃ s ∈ run step unused
      (.insert false 5 50 10 1073741822 ::
        List.replicate 10 (.access false 30) ++
          [.insert false 3 51 20 2147483646]),
      ∃ s₁ ∈ step s (.find true 5),
        ∃ s' ∈ run step s₁ (List.replicate 4
          [.access false 30, .access true 30]).flatten,
        (s'.points true).searched = some (5, some 10) := by
    decide +kernel
  obtain ⟨s, hs, s₁, hbegin, s', hrun, hresult⟩ := hruns
  have hpoint := Point.searched_eq_some hresult
  have hreachable := reachable_unused.of_unguarded_run hs
  obtain ⟨-, -, hcontains⟩ :=
    search_linearizable hreachable hbegin hrun (by decide) hpoint
  exact ⟨s, s₁, s', hs, hbegin, hrun, hpoint, hcontains 10 rfl⟩

/-- An insertion that succeeds began when the key was not in the set and leaves
it there with its own node and no other; one that does not comes back with the
node that has the key. -/
theorem insertion_linearizable {s₁ : State T K V} {value : V}
    {address random : ℕ} (h : Reachable step Initial unguarded s)
    (hbegin : step s (.insert t key value address random) = some s₁)
    (hrun : run step s₁ es = some s') (hes : ∀ e ∈ es, ¬ e.begins t)
    (hdone : (s'.points t).done) :
    (s'.points t = .inserted ⟨address, key, value, randomLevel random⟩ ∧
        (∀ n, ¬ Contains s.shared key n) ∧
          (∀ n, Contains s'.shared key n ↔ n = address) ∧
            s'.shared.value address = some (key, value)) ∨
      ∃ n, s'.points t = .present key n ∧
        ∀ m, Contains s'.shared key m ↔ m = n := by
  obtain ⟨S, hs⟩ := exists_inv h
  obtain ⟨S₁, hs₁, hkeeps⟩ := hs.effect (effect_of_step hbegin)
  have hpoint : s₁.points t =
      .getHead ⟨address, key, value, randomLevel random⟩ := by
    rw [step] at hbegin
    split at hbegin
    · exact Option.some.inj hbegin ▸ s.points_move_self t _ _
    · cases hbegin
  have hbegun : (s₁.points t).Serves
      (.insertion ⟨address, key, value, randomLevel random⟩) := by
    rw [hpoint]
    rfl
  have hserves := (lasting_serves _).of_run hs₁ trivial hbegun hrun hes
  obtain ⟨S', hs', -⟩ := hs₁.of_run hrun
  have hok := hs'.ok t
  have hunique : ∀ {n}, Holds s'.shared S' key n →
      ∀ m, Contains s'.shared key m ↔ m = n := by
    intro n hn m
    have hn := (contains_iff hs'.levels).mpr hn
    exact ⟨fun hm => hs'.contains_unique hm hn, fun hm => hm ▸ hn⟩
  cases hfinal : s'.points t with
  | inserted new =>
      rw [hfinal] at hserves hok
      obtain rfl := Call.insertion.inj hserves
      refine .inl ⟨rfl, ?_, hunique hok.1, hok.2⟩
      intro n hn
      have hholds := hkeeps.holds hs.levels ((contains_iff hs.levels).mp hn)
      have hrefuses := (lasting_refuses key n).of_run hs₁ hholds (hpoint ▸ rfl)
        hrun hes
      rw [hfinal] at hrefuses
      exact hrefuses
  | present k n =>
      rw [hfinal] at hserves hok
      obtain ⟨new, hnew, rfl⟩ := hserves
      obtain rfl := Call.insertion.inj hnew
      exact .inr ⟨n, rfl, hunique hok⟩
  | result =>
      rw [hfinal] at hserves
      cases hserves
  | idle =>
      rw [hfinal] at hserves
      exact hserves.elim
  | _ =>
      rw [hfinal] at hdone
      cases hdone

/-- The insertion has put its node into the list. -/
def Point.succeeded : Point K V → Bool
  | .inserted _ => true
  | _ => false

/-- The thread that comes second returns the node of the first. -/
theorem insertion_linearizable_race :
    ∃ s s₁ s', run step unused [.insert false 5 50 10 1073741822] = some s ∧
      step s (.insert true 5 51 20 1073741822) = some s₁ ∧
      run step s₁ race = some s' ∧
      ∃ n, s'.points true = .present 5 n ∧
        ∀ m, Contains s'.shared 5 m ↔ m = n := by
  have hruns : ∃ s ∈ run step unused [.insert false 5 50 10 1073741822],
      ∃ s₁ ∈ step s (.insert true 5 51 20 1073741822),
        ∃ s' ∈ run step s₁ race, (s'.points true).done = true ∧
          (s'.points true).succeeded = false := by
    decide +kernel
  obtain ⟨s, hs, s₁, hbegin, s', hrun, hdone, hfailed⟩ := hruns
  have hreachable := reachable_unused.of_unguarded_run hs
  rcases insertion_linearizable hreachable hbegin hrun (by decide) hdone with
    ⟨hinserted, -⟩ | hpresent
  · rw [hinserted] at hfailed
    cases hfailed
  · exact ⟨s, s₁, s', hs, hbegin, hrun, hpresent⟩

end Tbb
