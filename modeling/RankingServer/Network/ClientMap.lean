import RankingServer.Network.Server
import RankingServer.Foundation.Potential
import RankingServer.Tbb.Progress

/-!
# The map of the clients

`NetworkManager::Initialize` inserts the clients into `mClientMap` one by one
before any other thread runs.  From then on the workers look clients up, all at
once and without any lock, in `Session::Process` and in `NetworkManager::Send`.

The server of `RankingServer.Network.Server` takes the map for granted: a key
has a client if it is a slot (`Config.IsSlot`), and the loop of
`NetworkManager::Ready` visits the slots in ascending order.  Here this is
shown of the list that the map is made of.
-/

namespace RankingServer.Network.ClientMap

open Transition SortedLinks Tbb

universe w

variable {T : Type w} {c : Config}

/-- The threads are the main thread, `none`, and the workers.  A client is the
number it was made for; `index` is the variable of the loop in `Initialize`. -/
structure State (T : Type w) where
  map : Tbb.State (Option T) ℤ ℕ
  index : ℕ

/-- The next pass of the loop in `Initialize`, for the node and the random
number at hand; a look-up by a worker; or the next access to the list. -/
inductive Event (T : Type w)
  | fill (address random : ℕ)
  | find (t : T) (key : ℤ)
  | access (t : Option T) (address : ℕ)

/-- `Initialize` has left the loop. -/
def Initialized (c : Config) (s : State T) : Prop :=
  s.index = c.socketMax + 1 ∧ (s.map.points none).done

instance (c : Config) (s : State T) : Decidable (Initialized c s) :=
  inferInstanceAs (Decidable (_ ∧ _))

def step [DecidableEq T] (c : Config) (s : State T) : Event T → Option (State T)
  | .fill address random =>
      if s.index < c.socketMax + 1 then
        (Tbb.step s.map
          (.insert none s.index s.index address random)).map fun map =>
            ⟨map, s.index + 1⟩
      else none
  | .find t key =>
      if Initialized c s then
        (Tbb.step s.map (.find (some t) key)).map fun map => ⟨map, s.index⟩
      else none
  | .access t address =>
      (Tbb.step s.map (.access t address)).map fun map => ⟨map, s.index⟩

def Initial (s : State T) : Prop := Tbb.Initial s.map ∧ s.index = 1

/-! ## The invariant -/

/-- The nodes of the map are those of the clients that have been inserted, and
the search of a worker finds what is there. -/
structure Inv (c : Config) (s : State T) (S : ℕ → Set ℕ) : Prop where
  map : Tbb.Inv s.map S
  pos : 1 ≤ s.index
  le : s.index ≤ c.socketMax + 1
  values : ∀ n ∈ S 0, ∃ slot, 1 ≤ slot ∧ slot < s.index ∧
    s.map.shared.value n = some ((slot : ℤ), slot)
  before : ∀ slot, 1 ≤ slot → slot + 1 < s.index →
    ∃ n, Holds s.map.shared S (slot : ℤ) n
  main : (s.index = 1 ∧ s.map.points none = .idle) ∨
    ∃ new, (s.map.points none).Serves (.insertion new) ∧
      new.key = new.value ∧ 1 ≤ new.value ∧ new.value + 1 = s.index
  workers : ∀ t, s.map.points (some t) = .idle ∨ (Initialized c s ∧
    ∃ key, (s.map.points (some t)).Serves (.search key) ∧
      ∀ slot, c.IsSlot slot → key = slot → ∃ n,
        Holds s.map.shared S key n ∧ (s.map.points (some t)).Finds key n)

variable {s s' : State T} {S S' : ℕ → Set ℕ} {e : Event T}

theorem inv_initial (h : Initial s) : Inv c s fun _ => ∅ := by
  obtain ⟨hmap, hindex⟩ := h
  refine ⟨Tbb.inv_initial hmap, hindex.ge, ?_, by simp, ?_, ?_, ?_⟩
  · omega
  · intro slot hpos hlt
    omega
  · exact .inl ⟨hindex, hmap.2 none⟩
  · exact fun t => .inl (hmap.2 (some t))

/-- The last client is in the map when its insertion has come back. -/
theorem Inv.holds (h : Inv c s S) (hdone : (s.map.points none).done)
    {slot : ℕ} (hpos : 1 ≤ slot) (hlt : slot < s.index) :
    ∃ n, Holds s.map.shared S (slot : ℤ) n := by
  by_cases hlast : slot + 1 < s.index
  · exact h.before slot hpos hlast
  · rcases h.main with ⟨hone, -⟩ | ⟨new, hserves, hkey, -, hvalue⟩
    · omega
    · have hslot : (slot : ℤ) = new.key := by
        rw [hkey]
        omega
      have hok := h.map.ok none
      rw [hslot]
      cases hpoint : s.map.points none with
      | inserted new' =>
          rw [hpoint] at hok hserves
          obtain rfl := Call.insertion.inj hserves
          exact ⟨_, hok.1⟩
      | present key n =>
          rw [hpoint] at hok hserves
          obtain ⟨new', hnew, rfl⟩ := hserves
          obtain rfl := Call.insertion.inj hnew
          exact ⟨n, hok⟩
      | idle =>
          rw [hpoint] at hserves
          exact hserves.elim
      | result =>
          rw [hpoint] at hserves
          cases hserves
      | _ =>
          rw [hpoint] at hdone
          cases hdone

variable [DecidableEq T]

theorem Inv.fill (h : Inv c s S) (hindex : s.index < c.socketMax + 1)
    {address random : ℕ} {map : Tbb.State (Option T) ℤ ℕ}
    (hstep : Tbb.step s.map
      (.insert none s.index s.index address random) = some map) :
    Inv c ⟨map, s.index + 1⟩ S := by
  rw [Tbb.step] at hstep
  split at hstep
  · next hcond =>
      obtain ⟨hdone, hfresh, hrandom⟩ := hcond
      obtain rfl := Option.some.inj hstep
      rw [Option.isNone_iff_eq_none] at hfresh
      have hkeeps := keeps_create (S := S) [] hfresh
        (some ((s.index : ℤ), s.index)) (randomLevel random)
      have hlevels := h.map.levels
      refine ⟨h.map.insert hfresh hrandom, by simp, by simpa using hindex, ?_,
        ?_, .inr ⟨⟨address, s.index, s.index, randomLevel random⟩, ?_⟩, ?_⟩
      · intro n hn
        obtain ⟨slot, hpos, hlt, hvalue⟩ := h.values n hn
        exact ⟨slot, hpos, hlt.trans (Nat.lt_succ_self _),
          (hkeeps.value_of_at hlevels (.inr hn)).trans hvalue⟩
      · intro slot hpos hlt
        obtain ⟨n, hn⟩ := h.holds hdone hpos (by simpa using hlt)
        exact ⟨n, hkeeps.holds hlevels hn⟩
      · rw [State.points_move_self]
        exact ⟨rfl, rfl, h.pos, rfl⟩
      · intro t
        left
        rw [State.points_move_of_ne _ (by simp)]
        rcases h.workers t with hidle | ⟨⟨heq, -⟩, -⟩
        · exact hidle
        · omega
  · cases hstep

theorem Inv.find (h : Inv c s S) (hinit : Initialized c s) {t : T} {key : ℤ}
    {map : Tbb.State (Option T) ℤ ℕ}
    (hstep : Tbb.step s.map (.find (some t) key) = some map) :
    Inv c ⟨map, s.index⟩ S := by
  rw [Tbb.step] at hstep
  split at hstep
  · obtain rfl := Option.some.inj hstep
    have hmain :
        (s.map.move (some t) s.map.shared (.findHead key)).points none =
          s.map.points none := State.points_move_of_ne _ (by simp) _ _
    refine ⟨h.map.find key, h.pos, h.le, h.values, h.before, ?_, ?_⟩
    · rw [hmain]
      exact h.main
    · intro u
      have hinit' : Initialized c
          ⟨s.map.move (some t) s.map.shared (.findHead key), s.index⟩ :=
        ⟨hinit.1, hmain ▸ hinit.2⟩
      by_cases hu : u = t
      · subst hu
        right
        rw [State.points_move_self]
        refine ⟨hinit', key, rfl, ?_⟩
        rintro slot ⟨hpos, hle⟩ rfl
        obtain ⟨n, hn⟩ := h.holds hinit.2 hpos (by
          have hindex := hinit.1
          omega)
        exact ⟨n, hn, rfl⟩
      · rw [State.points_move_of_ne _ (by simpa using hu)]
        rcases h.workers u with hidle | ⟨-, key', hserves, hfinds⟩
        · exact .inl hidle
        · exact .inr ⟨hinit', key', hserves, hfinds⟩
  · cases hstep

theorem Inv.access (h : Inv c s S) {t : Option T} {address : ℕ}
    {map : Tbb.State (Option T) ℤ ℕ}
    (hstep : Tbb.step s.map (.access t address) = some map) :
    ∃ S', Inv c ⟨map, s.index⟩ S' := by
  have haccess := access_of_access hstep
  obtain ⟨S', hmap, hkeeps, hlinked⟩ := h.map.access haccess
  have hlevels := h.map.levels
  have hdone := haccess.done_eq_false
  have hrun : run Tbb.step s.map [.access t address] = some map := by
    rw [run_cons, hstep]
    rfl
  have hes : ∀ u, ∀ e ∈ [Tbb.Event.access t address],
      ¬ Event.begins (K := ℤ) (V := ℕ) u e := by
    intro u e he
    obtain rfl := List.mem_singleton.mp he
    exact id
  have hne : ∀ u, (s.map.points u).done → u ≠ t := by
    rintro u hu rfl
    rw [hdone] at hu
    cases hu
  have hsame : ∀ u, u ≠ t → map.points u = s.map.points u :=
    fun u hu => (Effect.access haccess).point_of_ne hu
  refine ⟨S', hmap, h.pos, h.le, ?_, ?_, ?_, ?_⟩
  · intro n hn
    have hold : n ∈ S 0 → ∃ slot, 1 ≤ slot ∧ slot < s.index ∧
        map.shared.value n = some ((slot : ℤ), slot) := by
      intro hn
      obtain ⟨slot, hpos, hlt, hvalue⟩ := h.values n hn
      exact ⟨slot, hpos, hlt,
        (hkeeps.value_of_at hlevels (.inr hn)).trans hvalue⟩
    rcases hlinked with rfl | ⟨level, new, rfl, hserves, hvalue⟩
    · exact hold hn
    · rcases mem_raise.mp hn with hn | ⟨rfl, -⟩
      · exact hold hn
      · -- only the main thread inserts
        cases t with
        | none =>
            rcases h.main with
              ⟨-, hidle⟩ | ⟨new', hserves', hkey, hpos, hindex⟩
            · rw [hidle] at hserves
              exact hserves.elim
            · obtain rfl := Call.insertion.inj
                (hserves.unique hserves' hdone)
              exact ⟨new.value, hpos, Nat.lt_of_succ_le hindex.le,
                hkey ▸ hvalue⟩
        | some u =>
            rcases h.workers u with hidle | ⟨-, key, hserves', -⟩
            · rw [hidle] at hserves
              exact hserves.elim
            · cases hserves.unique hserves' hdone
  · intro slot hpos hlt
    obtain ⟨n, hn⟩ := h.before slot hpos hlt
    exact ⟨n, hkeeps.holds hlevels hn⟩
  · rcases h.main with ⟨hone, hidle⟩ | ⟨new, hserves, hnew⟩
    · left
      rw [hsame none (hne none (hidle ▸ rfl))]
      exact ⟨hone, hidle⟩
    · exact .inr ⟨new, (lasting_serves _).of_run h.map trivial hserves hrun
        (hes none), hnew⟩
  · intro u
    rcases h.workers u with hidle | ⟨hinit, key, hserves, hfinds⟩
    · left
      rw [hsame (some u) (hne (some u) (hidle ▸ rfl))]
      exact hidle
    · refine .inr ⟨⟨hinit.1, ?_⟩, key, ?_, ?_⟩
      · rw [hsame none (hne none hinit.2)]
        exact hinit.2
      · exact (lasting_serves _).of_run h.map trivial hserves hrun
          (hes (some u))
      · intro slot hslot heq
        obtain ⟨n, hn, hfinds⟩ := hfinds slot hslot heq
        exact ⟨n, hkeeps.holds hlevels hn,
          (lasting_finds key n).of_run h.map hn hfinds hrun (hes (some u))⟩

theorem exists_inv (h : Reachable (step c) Initial unguarded s) :
    ∃ S, Inv c s S := by
  induction h with
  | start hinit => exact ⟨_, inv_initial hinit⟩
  | @next s s' e _ _ hstep ih =>
      obtain ⟨S, hs⟩ := ih
      cases e with
      | fill address random =>
          rw [step] at hstep
          split at hstep
          · next hindex =>
              obtain ⟨map, hmap, rfl⟩ := Option.map_eq_some_iff.mp hstep
              exact ⟨S, hs.fill hindex hmap⟩
          · cases hstep
      | find t key =>
          rw [step] at hstep
          split at hstep
          · next hinit =>
              obtain ⟨map, hmap, rfl⟩ := Option.map_eq_some_iff.mp hstep
              exact ⟨S, hs.find hinit hmap⟩
          · cases hstep
      | access t address =>
          obtain ⟨map, hmap, rfl⟩ := Option.map_eq_some_iff.mp hstep
          exact hs.access hmap

/-! ## What the threads get -/

/-- The client of a node. -/
def client (s : State T) (n : ℕ) : Option ℕ :=
  (s.map.shared.value n).map Prod.snd

omit [DecidableEq T] in
theorem Inv.client_eq (h : Inv c s S) {key : ℤ} {n : ℕ}
    (hn : Holds s.map.shared S key n) :
    ∃ slot, 1 ≤ slot ∧ slot < s.index ∧ key = slot ∧
      client s n = some slot := by
  obtain ⟨slot, hpos, hlt, hvalue⟩ := h.values n hn.mem
  have hrank := Shared.rank_of_get_key (Shared.get_key_of_value hvalue)
  refine ⟨slot, hpos, hlt, WithBot.coe_inj.mp (hn.rank.symm.trans hrank), ?_⟩
  rw [client, hvalue]
  rfl

/-- Whatever the workers do at the same time, a look-up finds the client of a
slot, and nothing for any other key. -/
theorem find_eq_client (h : Reachable (step c) Initial unguarded s) {t : T}
    {key : ℤ} {node : Option ℕ}
    (hresult : s.map.points (some t) = .result key node) :
    (∀ slot, c.IsSlot slot → key = slot → node.bind (client s) = some slot) ∧
      ((∀ slot, c.IsSlot slot → key ≠ slot) → node = none) := by
  obtain ⟨S, hs⟩ := exists_inv h
  have hok := hs.map.ok (some t)
  rw [hresult] at hok
  have hle := hs.le
  rcases hs.workers t with hidle | ⟨hinit, key', hserves, hfinds⟩
  · rw [hresult] at hidle
    cases hidle
  · rw [hresult] at hserves hfinds
    obtain rfl := Call.search.inj hserves
    constructor
    · intro slot hslot heq
      obtain ⟨n, hn, -, rfl⟩ := hfinds slot hslot heq
      obtain ⟨slot', -, -, heq', hclient⟩ := hs.client_eq hn
      obtain rfl : slot' = slot := by omega
      exact hclient
    · intro hnone
      cases node with
      | none => rfl
      | some n =>
          obtain ⟨slot, hpos, hlt, heq, -⟩ := hs.client_eq (hok n rfl)
          exact absurd heq (hnone slot ⟨hpos, by omega⟩)

/-- Two clients and any number of workers, of which two look clients up. -/
def twoClients : Config := ⟨100, 2, by decide, by decide⟩

/-- The constructed map, before the loop in `Initialize`. -/
def constructed : State Bool := ⟨⟨.empty, fun _ => .idle⟩, 1⟩

theorem initial_constructed : Initial constructed :=
  ⟨⟨rfl, fun _ => rfl⟩, rfl⟩

/-- The loop of `Initialize`. -/
def fillBoth : List (Event Bool) :=
  .fill 10 2147483646 :: List.replicate 8 (.access none 100) ++
    .fill 20 1073741822 :: List.replicate 11 (.access none 100)

/-- Two workers look up a slot and a key that is none, access by access. -/
def lookUps : List (Event Bool) :=
  fillBoth ++ [.find false 2, .find true 7] ++
    (List.replicate 5
      [.access (some false) 100, .access (some true) 100]).flatten

theorem find_eq_client_lookUps :
    ∃ s node, run (step twoClients) constructed lookUps = some s ∧
      s.map.points (some false) = .result 2 node ∧
      node.bind (client s) = some 2 ∧
      s.map.points (some true) = .result 7 none := by
  have hruns : ∃ s ∈ run (step twoClients) constructed lookUps,
      (s.map.points (some false)).searched = some (2, some 20) ∧
        (s.map.points (some true)).searched = some (7, none) := by
    decide +kernel
  obtain ⟨s, hrun, hfirst, hsecond⟩ := hruns
  have hpoint := Point.searched_eq_some hfirst
  have hreachable : Reachable (step twoClients) Initial unguarded s :=
    .of_unguarded_run (.start initial_constructed) hrun
  exact ⟨s, _, hrun, hpoint,
    (find_eq_client hreachable hpoint).1 2 (by decide) rfl,
    Point.searched_eq_some hsecond⟩

/-- The nodes that a loop from `begin()` to `end()` visits. -/
def Visits {K V : Type*} (s : Shared K V) (ns : List ℕ) : Prop :=
  match s.my_head_ptr with
  | none => ns = []
  | some head => Path (s.link 0) head ns

/-- The loop of `NetworkManager::Ready` visits each client once, in ascending
order. -/
theorem ready_visits (h : Reachable (step c) Initial unguarded s)
    (hinit : Initialized c s) :
    ∃ ns, Visits s.map.shared ns ∧
      ns.map (client s) = (List.range' 1 c.socketMax).map some := by
  obtain ⟨S, hs⟩ := exists_inv h
  obtain ⟨hindex, hdone⟩ := hinit
  have hlevels := hs.map.levels
  have hholds : ∀ slot, c.IsSlot slot →
      ∃ n, Holds s.map.shared S (slot : ℤ) n := by
    rintro slot ⟨hpos, hle⟩
    exact hs.holds hdone hpos (by omega)
  cases hhead : s.map.shared.my_head_ptr with
  | none =>
      have hzero : c.socketMax = 0 := by
        by_contra hne
        obtain ⟨n, hn, -⟩ := hholds 1 ⟨le_rfl, by omega⟩
        rw [hlevels.empty hhead 0] at hn
        cases hn
      refine ⟨[], by rw [Visits, hhead], ?_⟩
      rw [hzero]
      rfl
  | some head =>
      obtain ⟨ns, hpath, hsorted, hmem⟩ :=
        (hlevels.links head hhead 0 (by decide)).exists_path hlevels.finite
      refine ⟨ns, by rw [Visits, hhead]; exact hpath, ?_⟩
      -- the slots of the nodes, in the order of the nodes
      let slotOf : ℕ → ℕ := fun n => (client s n).getD 0
      have hslot : ∀ n ∈ ns, client s n = some (slotOf n) ∧
          s.map.shared.rank n = ((slotOf n : ℤ) : WithBot ℤ) ∧
            c.IsSlot (slotOf n) := by
        intro n hn
        obtain ⟨slot, hpos, hlt, hvalue⟩ := hs.values n ((hmem n).mp hn)
        have hclient : client s n = some slot := by
          rw [client, hvalue]
          rfl
        have heq : slotOf n = slot := by
          change (client s n).getD 0 = slot
          rw [hclient]
          rfl
        rw [heq]
        exact ⟨hclient,
          Shared.rank_of_get_key (Shared.get_key_of_value hvalue),
          hpos, by omega⟩
      have hascending : (ns.map slotOf).Pairwise (· < ·) := by
        rw [List.pairwise_map]
        refine hsorted.imp_of_mem ?_
        intro n m hn hm hlt
        rw [(hslot n hn).2.1, (hslot m hm).2.1] at hlt
        exact_mod_cast WithBot.coe_lt_coe.mp hlt
      have hslots : ns.map slotOf = List.range' 1 c.socketMax := by
        refine hascending.eq_of_mem_iff List.pairwise_lt_range' ?_
        intro slot
        rw [List.mem_map, List.mem_range'_1]
        constructor
        · rintro ⟨n, hn, rfl⟩
          obtain ⟨hpos, hle⟩ := (hslot n hn).2.2
          omega
        · rintro ⟨hpos, hlt⟩
          obtain ⟨n, hn⟩ := hholds slot ⟨hpos, by omega⟩
          have hn' := (hmem n).mpr hn.mem
          refine ⟨n, hn', ?_⟩
          have hrank := (hslot n hn').2.1.symm.trans hn.rank
          exact_mod_cast WithBot.coe_inj.mp hrank
      rw [← hslots, List.map_map]
      exact List.map_congr_left fun n hn => (hslot n hn).1

theorem ready_visits_fillBoth :
    ∃ s ns, run (step twoClients) constructed fillBoth = some s ∧
      Visits s.map.shared ns ∧ ns.map (client s) = [some 1, some 2] := by
  have hruns : ∃ s ∈ run (step twoClients) constructed fillBoth,
      Initialized twoClients s := by
    decide +kernel
  obtain ⟨s, hrun, hinit⟩ := hruns
  obtain ⟨ns, hvisits, hclients⟩ :=
    ready_visits (.of_unguarded_run (.start initial_constructed) hrun) hinit
  exact ⟨s, ns, hrun, hvisits, hclients⟩

/-! ## How long it takes -/

/-- The accesses of a thread. -/
def Event.accesses (t : Option T) : Event T → Bool
  | .access u _ => u = t
  | .fill _ _ | .find _ _ => false

def Event.fills : Event T → Bool
  | .fill _ _ => true
  | .find _ _ | .access _ _ => false

/-- The look-ups of a worker. -/
def Event.finds (t : T) : Event T → Bool
  | .find u _ => u = t
  | .fill _ _ | .access _ _ => false

/-- The invariant, and no insertion is disturbed. -/
structure Calm (c : Config) (s : State T) : Prop where
  inv : ∃ S, Inv c s S
  alone : (s.map.points none).Alone s.map.shared

/-- The calls of a thread: the main thread inserts, the workers search. -/
def Event.begins : Option T → Event T → Bool
  | none => fills
  | some t => finds t

/-- The accesses of a call. -/
def cost (c : Config) : Option T → ℕ
  | none => c.socketMax + 101
  | some _ => c.socketMax + 35

/-- The accesses that are left of the call of a thread. -/
noncomputable def left (c : Config) (s : State T) (t : Option T) : ℕ :=
  (s.map.points t).left c.socketMax s.map.shared

omit [DecidableEq T] in
theorem Inv.ncard_le (h : Inv c s S) : (S 0).ncard ≤ c.socketMax := by
  let slotOf : ℕ → ℕ := fun n => (client s n).getD 0
  have hslot : ∀ n ∈ S 0, 1 ≤ slotOf n ∧ slotOf n ≤ c.socketMax ∧
      s.map.shared.rank n = ((slotOf n : ℤ) : WithBot ℤ) := by
    intro n hn
    obtain ⟨slot, hpos, hlt, hvalue⟩ := h.values n hn
    have heq : slotOf n = slot := by
      change ((s.map.shared.value n).map Prod.snd).getD 0 = slot
      rw [hvalue]
      rfl
    have hle := h.le
    rw [heq]
    exact ⟨hpos, by omega,
      Shared.rank_of_get_key (Shared.get_key_of_value hvalue)⟩
  have hcard := Set.ncard_le_ncard_of_injOn
    (t := (Finset.Icc 1 c.socketMax : Set ℕ)) slotOf (fun n hn => by
      obtain ⟨hpos, hle, -⟩ := hslot n hn
      simpa using ⟨hpos, hle⟩)
    (fun n hn m hm heq => h.map.levels.injective (by decide) hn hm (by
      rw [(hslot n hn).2.2, (hslot m hm).2.2, heq]))
    (Finset.finite_toSet _)
  rwa [Set.ncard_coe_finset, Nat.card_Icc, Nat.add_sub_cancel] at hcard

omit [DecidableEq T] in
theorem calm_initial (h : Initial s) : Calm c s := by
  refine ⟨⟨_, inv_initial h⟩, ?_⟩
  obtain ⟨⟨hshared, hpoints⟩, -⟩ := h
  rw [hpoints, hshared]
  rintro head ⟨⟩

omit [DecidableEq T] in
/-- While the main thread is inserting, no worker runs. -/
theorem Inv.idle (h : Inv c s S) (hdone : (s.map.points none).done = false)
    (t : T) : s.map.points (some t) = .idle := by
  rcases h.workers t with hidle | ⟨⟨-, hmain⟩, -⟩
  · exact hidle
  · rw [hdone] at hmain
    cases hmain

/-- A new insertion, whose node is not linked yet, finds the list as it is. -/
theorem Calm.fill (h : Calm c s) (hindex : s.index < c.socketMax + 1)
    {address random : ℕ} {map : Tbb.State (Option T) ℤ ℕ}
    (hstep : Tbb.step s.map
      (.insert none s.index s.index address random) = some map) :
    Calm c ⟨map, s.index + 1⟩ := by
  obtain ⟨S, hs⟩ := h.inv
  refine ⟨⟨S, hs.fill hindex hstep⟩, ?_⟩
  rw [Tbb.step] at hstep
  split at hstep
  · next hcond =>
      obtain ⟨hdone, hfresh, -⟩ := hcond
      obtain rfl := Option.some.inj hstep
      rw [State.points_move_self]
      rw [Option.isNone_iff_eq_none] at hfresh
      refine (h.alone.topped hdone).of_link rfl rfl ?_
      intro head hhead l _ _
      refine Shared.link_put_of_ne ?_ _
      rintro rfl
      exact hs.map.levels.not_at_of_fresh hfresh 0 (.inl hhead)
  · cases hstep

theorem Calm.find (h : Calm c s) (hinit : Initialized c s) {t : T} {key : ℤ}
    {map : Tbb.State (Option T) ℤ ℕ}
    (hstep : Tbb.step s.map (.find (some t) key) = some map) :
    Calm c ⟨map, s.index⟩ := by
  obtain ⟨S, hs⟩ := h.inv
  refine ⟨⟨S, hs.find hinit hstep⟩, ?_⟩
  rw [Tbb.step] at hstep
  split at hstep
  · obtain rfl := Option.some.inj hstep
    rw [State.points_move_of_ne _ (by simp)]
    exact h.alone
  · cases hstep

/-- An access of the main thread is part of an insertion. -/
theorem Calm.access_main (h : Calm c s) {map : Tbb.State (Option T) ℤ ℕ}
    (haccess : Access s.map none map) :
    Shrinks c.socketMax s.map.shared (s.map.points none) map.shared
      (map.points none) := by
  obtain ⟨S, hs⟩ := h.inv
  have halone := h.alone
  cases haccess with
  | getHead hget hhead =>
      rw [hget] at halone
      rw [State.points_move_self, hget]
      exact ⟨halone, by simp only [Point.left]; omega⟩
  | createHead hget hhead hfresh =>
      rw [State.points_move_self, hget]
      refine ⟨?_, by simp only [Point.left]; omega⟩
      intro head hsome
      cases Option.some_ne_none _ (hsome.symm.trans hhead)
  | access hdone hget haccess =>
      rw [State.points_move_self]
      rcases hs.main with ⟨-, hidle⟩ | ⟨new, hserves, -⟩
      · rw [hidle] at hdone
        cases hdone
      · exact shrinks_of_alone hs.map.levels hs.ncard_le (hs.map.ok none)
          halone hserves haccess
  | fault hdone hget haccess =>
      obtain ⟨_, _, _, haccess', -⟩ :=
        succeeds_of_ok hs.map.levels (hs.map.ok none) hdone hget
      rw [haccess] at haccess'
      cases haccess'

/-- An access of a worker is part of a search. -/
theorem Inv.access_worker (h : Inv c s S) {t : T}
    {map : Tbb.State (Option T) ℤ ℕ} (haccess : Access s.map (some t) map) :
    map.shared = s.map.shared ∧
      (map.points (some t)).left c.socketMax map.shared <
        left c s (some t) := by
  have hdone := haccess.done_eq_false
  rcases h.workers t with hidle | ⟨-, key, hserves, -⟩
  · rw [hidle] at hdone
    cases hdone
  · cases haccess with
    | getHead hget hhead | createHead hget hhead hfresh =>
        rw [hget] at hserves
        cases hserves
    | access hdone hget haccess =>
        rw [State.points_move_self]
        exact left_lt_of_search h.map.levels h.ncard_le (h.map.ok (some t))
          hserves haccess
    | fault hdone hget haccess =>
        obtain ⟨_, _, _, haccess', -⟩ :=
          succeeds_of_ok h.map.levels (h.map.ok (some t)) hdone hget
        rw [haccess] at haccess'
        cases haccess'

/-- An access leaves less to its thread, and to the others as much as before. -/
theorem Calm.access (h : Calm c s) {t : Option T} {address : ℕ}
    {map : Tbb.State (Option T) ℤ ℕ}
    (hstep : Tbb.step s.map (.access t address) = some map) :
    Calm c ⟨map, s.index⟩ ∧ left c ⟨map, s.index⟩ t < left c s t ∧
      ∀ u, u ≠ t → left c ⟨map, s.index⟩ u = left c s u := by
  obtain ⟨S, hs⟩ := h.inv
  have haccess := access_of_access hstep
  have hsame : ∀ u, u ≠ t → map.points u = s.map.points u :=
    fun u hu => (Effect.access haccess).point_of_ne hu
  cases t with
  | none =>
      obtain ⟨halone, hless⟩ := h.access_main haccess
      refine ⟨⟨hs.access hstep, halone⟩, hless, ?_⟩
      rintro (_ | u) hu
      · exact absurd rfl hu
      · rw [left, left, hsame _ hu, hs.idle haccess.done_eq_false u]
        rfl
  | some t =>
      obtain ⟨hshared, hless⟩ := hs.access_worker haccess
      refine ⟨⟨hs.access hstep, ?_⟩, hless, ?_⟩
      · rw [hsame none (by simp), hshared]
        exact h.alone
      · intro u hu
        rw [left, left, hsame u hu, hshared]

theorem Inv.left_fill (h : Inv c s S) (hindex : s.index < c.socketMax + 1)
    {address random : ℕ} {map : Tbb.State (Option T) ℤ ℕ}
    (hstep : Tbb.step s.map
      (.insert none s.index s.index address random) = some map) :
    left c ⟨map, s.index + 1⟩ none ≤ c.socketMax + 101 ∧
      ∀ t, left c ⟨map, s.index + 1⟩ (some t) = 0 := by
  rw [Tbb.step] at hstep
  split at hstep
  · obtain rfl := Option.some.inj hstep
    constructor
    · have hheight := randomLevel_lt random
      rw [left, State.points_move_self]
      simp only [Point.left, max_level] at hheight ⊢
      omega
    · intro t
      rw [left, State.points_move_of_ne _ (by simp)]
      rcases h.workers t with hidle | ⟨⟨heq, -⟩, -⟩
      · rw [hidle]
        rfl
      · omega
  · cases hstep

theorem left_find {t : T} {key : ℤ} {map : Tbb.State (Option T) ℤ ℕ}
    (hstep : Tbb.step s.map (.find (some t) key) = some map) :
    left c ⟨map, s.index⟩ (some t) = c.socketMax + 35 ∧
      ∀ u, u ≠ some t → left c ⟨map, s.index⟩ u = left c s u := by
  rw [Tbb.step] at hstep
  split at hstep
  · obtain rfl := Option.some.inj hstep
    constructor
    · rw [left, State.points_move_self]
      simp only [Point.left, max_level]
      omega
    · intro u hu
      rw [left, State.points_move_of_ne _ hu]
      rfl
  · cases hstep

/-- A step keeps everything calm.  It takes from what is left to the thread that
makes an access, and gives a thread at most the cost of the call it begins. -/
theorem Calm.step (h : Calm c s) (hstep : step c s e = some s') :
    Calm c s' ∧ ∀ t,
      (e.accesses t = true → left c s' t < left c s t) ∧
      (e.accesses t = false →
        left c s' t ≤ left c s t + if e.begins t then cost c t else 0) := by
  obtain ⟨S, hs⟩ := h.inv
  cases e with
  | fill address random =>
      rw [ClientMap.step] at hstep
      split at hstep
      · next hindex =>
          obtain ⟨map, hmap, rfl⟩ := Option.map_eq_some_iff.mp hstep
          obtain ⟨hmain, hworkers⟩ := hs.left_fill hindex hmap
          refine ⟨h.fill hindex hmap, fun t => ⟨nofun, fun _ => ?_⟩⟩
          cases t with
          | none => exact hmain.trans (Nat.le_add_left _ _)
          | some t => exact (hworkers t).trans_le (Nat.zero_le _)
      · cases hstep
  | find t key =>
      rw [ClientMap.step] at hstep
      split at hstep
      · next hinit =>
          obtain ⟨map, hmap, rfl⟩ := Option.map_eq_some_iff.mp hstep
          obtain ⟨hself, hothers⟩ := left_find (c := c) hmap
          refine ⟨h.find hinit hmap, fun u => ⟨nofun, fun _ => ?_⟩⟩
          by_cases hu : u = some t
          · subst hu
            rw [hself, Event.begins, Event.finds, decide_eq_true rfl,
              if_pos rfl]
            exact Nat.le_add_left _ _
          · rw [hothers u hu]
            exact Nat.le_add_right _ _
      · cases hstep
  | access t address =>
      obtain ⟨map, hmap, rfl⟩ := Option.map_eq_some_iff.mp hstep
      obtain ⟨hcalm, hless, hothers⟩ := h.access hmap
      refine ⟨hcalm, fun u => ⟨?_, ?_⟩⟩
      · intro hu
        obtain rfl := of_decide_eq_true hu
        exact hless
      · intro hu
        rw [hothers u (Ne.symm (of_decide_eq_false hu))]
        exact Nat.le_add_right _ _

theorem index_of_run {es : List (Event T)}
    (hrun : run (step c) s es = some s') :
    s'.index = s.index + es.countP Event.fills := by
  induction es generalizing s with
  | nil =>
      obtain rfl := Option.some.inj hrun
      rfl
  | cons e es ih =>
      obtain ⟨s₁, hs₁, htail⟩ := Option.bind_eq_some_iff.mp hrun
      rw [ih htail, List.countP_cons]
      cases e with
      | fill address random =>
          rw [ClientMap.step] at hs₁
          split at hs₁
          · obtain ⟨map, -, rfl⟩ := Option.map_eq_some_iff.mp hs₁
            simp only [Event.fills, if_true]
            omega
          · cases hs₁
      | find t key =>
          rw [ClientMap.step] at hs₁
          split at hs₁
          · obtain ⟨map, -, rfl⟩ := Option.map_eq_some_iff.mp hs₁
            rfl
          · cases hs₁
      | access t address =>
          obtain ⟨map, -, rfl⟩ := Option.map_eq_some_iff.mp hs₁
          rfl

/-- A thread in a call can make its next access. -/
theorem exists_access (t : Option T) (hok : s.map.points t ≠ .faulted)
    (hdone : (s.map.points t).done = false) {address : ℕ}
    (hfresh : s.map.shared.memory address = none) :
    (step c s (.access t address)).isSome := by
  rw [ClientMap.step, Option.isSome_map, Tbb.step, State.access]
  split
  · rfl
  · rw [if_pos (Option.isNone_iff_eq_none.mpr hfresh)]
    rfl
  · next hpoint => exact absurd hpoint hok
  · rw [if_neg (by simp [hdone])]
    split
    all_goals rfl

/-- In every run the main thread makes a bounded number of accesses, and each
look-up takes at most `socketMax + 35` of them, whatever the others do; a thread
in a call can always go on. -/
theorem accesses_le {es : List (Event T)} (hinit : Initial s)
    (hrun : run (step c) s es = some s') :
    es.countP (Event.accesses none) ≤ c.socketMax * (c.socketMax + 101) ∧
      (∀ t, es.countP (Event.accesses (some t)) ≤
        (c.socketMax + 35) * es.countP (Event.finds t)) ∧
      ∀ t address, (s'.map.points t).done = false →
        s'.map.shared.memory address = none →
        (step c s' (.access t address)).isSome := by
  have hpaid : ∀ t, es.countP (Event.accesses t) ≤
      cost c t * es.countP (Event.begins t) := by
    intro t
    have hcount := countP_le_of_invariant (φ := fun s => left c s t)
      (fun s e s' hs hstep =>
        ⟨(hs.step hstep).1, (hs.step hstep).2 t⟩) (calm_initial hinit) hrun
    have hincome := income_ite_le (Event.accesses t) (Event.begins t)
      (cost c t) es
    have hzero : left c s t = 0 := by
      rw [left, hinit.1.2 t]
      rfl
    omega
  have hreach : Reachable (step c) Initial unguarded s' :=
    .of_unguarded_run (.start hinit) hrun
  obtain ⟨S, hs⟩ := exists_inv hreach
  refine ⟨?_, fun t => hpaid (some t), ?_⟩
  · have hfills : es.countP Event.fills ≤ c.socketMax := by
      have hindex := index_of_run hrun
      have hle := hs.le
      rw [hinit.2] at hindex
      omega
    calc es.countP (Event.accesses none)
        ≤ (c.socketMax + 101) * es.countP Event.fills := hpaid none
      _ ≤ (c.socketMax + 101) * c.socketMax := Nat.mul_le_mul_left _ hfills
      _ = c.socketMax * (c.socketMax + 101) := Nat.mul_comm _ _
  · intro t address hdone hfresh
    refine exists_access t ?_ hdone hfresh
    intro hpoint
    have hok := hs.map.ok t
    rw [hpoint] at hok
    exact hok

/-- Nineteen accesses of the main thread, and five for each look-up. -/
theorem accesses_le_lookUps :
    ∃ s, run (step twoClients) constructed lookUps = some s ∧
      lookUps.countP (Event.accesses none) = 19 ∧
      lookUps.countP (Event.accesses none) ≤ 2 * (2 + 101) ∧
      lookUps.countP (Event.accesses (some true)) ≤ (2 + 35) * 1 := by
  have hruns : (run (step twoClients) constructed lookUps).isSome := by
    decide +kernel
  obtain ⟨s, hrun⟩ := Option.isSome_iff_exists.mp hruns
  obtain ⟨hmain, hworkers, -⟩ := accesses_le initial_constructed hrun
  exact ⟨s, hrun, by decide, hmain, hworkers true⟩

end RankingServer.Network.ClientMap
