import RankingServer.Network.Slots

/-!
# The life of a connection

A slot is closed, then it may have a live connection, and when that has ended
the slot stays as it is: no second accept is ever posted on it, and no more
bytes arrive.  An accept that is still outstanding is on a closed slot.
-/

namespace RankingServer.Network

open Accounting Transition Utility

variable {α : Type*} {n : ℕ} {c : Config} {handler : Handler α}
  {s s' : State n} {e : Event α n} {slot : ℕ}

/-! ## The order of a life -/

/-- How far a connection has got. -/
def Connection.age : Connection → ℕ
  | closed => 0
  | live => 1
  | ended => 2

theorem Connection.age_le (connection : Connection) : connection.age ≤ 2 := by
  cases connection with
  | closed => exact Nat.zero_le 2
  | live => exact one_le_two
  | ended => exact le_refl 2

theorem Connection.eq_ended_of_age {connection : Connection}
    (h : 2 ≤ connection.age) : connection = .ended := by
  cases connection with
  | closed => exact absurd h (by decide)
  | live => exact absurd h (by decide)
  | ended => rfl

theorem age_update_le {connection : ℕ → Connection} {client : ℕ}
    {next : Connection} (hnext : (connection client).age ≤ next.age)
    (slot : ℕ) :
    (connection slot).age ≤ (Function.update connection client next slot).age :=
    by
  by_cases heq : slot = client
  · subst heq
    rwa [Function.update_self]
  · rw [Function.update_of_ne heq]

/-- No step makes a connection younger. -/
theorem age_step (h : Step c handler s e s') (slot : ℕ) :
    (s.connection slot).age ≤ (s'.connection slot).age := by
  cases h with
  | acceptDone hget hclosed =>
      apply age_update_le
      rw [hclosed]
      exact Nat.zero_le _
  | recvDone hget hfits hlive =>
      change _ ≤ ((if _ then _ else _ : ℕ → Connection) slot).age
      split
      · exact age_update_le (Connection.age_le _) slot
      · exact le_rfl
  | fail hget hnone =>
      change _ ≤ ((if _ then _ else _ : ℕ → Connection) slot).age
      split
      · exact le_rfl
      · exact age_update_le (Connection.age_le _) slot
  | _ => exact le_rfl

/-- On a connection that has ended nothing arrives any more. -/
theorem arrived_step (h : Step c handler s e s')
    (hended : s.connection slot = .ended) {data : List UInt8}
    (hdata : data ≠ []) :
    s'.log.count (.arrived slot data) = s.log.count (.arrived slot data) := by
  cases h with
  | @recvDone k received p client hget hfits hlive =>
      apply List.count_cons_of_ne
      intro heq
      obtain ⟨rfl, rfl⟩ := Entry.arrived.inj heq
      rcases hlive with hempty | hlive
      · exact hdata hempty
      · rw [hended] at hlive
        cases hlive
  | @post w answer overlapped client call p hpopped =>
      apply List.count_cons_of_ne
      cases call with
      | receiveReady | send =>
          intro heq
          cases heq
  | acceptPost | handled | aborted =>
      exact List.count_cons_of_ne (by simp)
  | _ => rfl

/-! ## One accept for each slot -/

/-- The accepts that have been posted on the slot, and those that are due. -/
def accepts (slot : ℕ) (s : State n) : ℕ :=
  s.log.count (.accepting slot) + (turn slot).ofMain s.main

theorem accepts_step (h : Step c handler s e s') (slot : ℕ) :
    accepts slot s' ≤ accepts slot s := by
  have hlog {entry : Entry} (hne : entry ≠ .accepting slot) :
      (entry :: s.log).count (.accepting slot) + (turn slot).ofMain s.main ≤
        accepts slot s :=
    (congrArg (· + _) (List.count_cons_of_ne hne)).le
  cases h with
  | acceptEnd hmain | acceptPop hmain | install hmain | spawn hk hmain =>
      rw [accepts, accepts, hmain]
      exact le_rfl
  | @acceptSkip client clients hmain =>
      rw [accepts, accepts, hmain]
      simp only [turn, List.count_cons]
      omega
  | @acceptPost client clients p hmain =>
      rw [accepts, accepts, hmain]
      simp only [State.post, State.setObject, turn, List.count_cons, beq_iff_eq,
        Entry.accepting.injEq]
      omega
  | @acceptRefused client clients p hmain =>
      rw [accepts, accepts, hmain]
      simp only [State.setObject, turn, List.count_cons]
      omega
  | handled | aborted | recvDone => exact hlog (by simp)
  | @post w answer overlapped client call p hpopped =>
      apply hlog
      cases call with
      | receiveReady | send =>
          intro heq
          cases heq
  | _ => exact le_rfl

theorem accepts_initialized (n : ℕ) (c : Config)
    (hg bg : Pointer → List UInt8) (slot : ℕ) :
    accepts slot (initialized n c hg bg) ≤ 1 := by
  have hcount : accepts slot (initialized n c hg bg) =
      0 + (List.range' 1 c.socketMax).count slot := rfl
  rw [hcount, Nat.zero_add]
  exact List.nodup_iff_count_le_one.mp List.nodup_range' slot

theorem accepts_le_one {guard : State n → Event α n → Prop}
    (hs : Reachable (State.step c handler) (Started c) guard s) (slot : ℕ) :
    accepts slot s ≤ 1 := by
  apply hs.invariant
  · rintro s ⟨hg, bg, rfl⟩
    exact accepts_initialized n c hg bg slot
  · intro s e s' hle _ hstep
    exact (accepts_step (State.step_cases hstep).2 slot).trans hle

/-! ## Outstanding accepts -/

/-- A slot for which an accept is outstanding or due is closed. -/
structure Unaccepted (s : State n) : Prop where
  main : ∀ slot, s.main.Owes slot → s.connection slot = .closed
  posted : ∀ op ∈ s.posted, op.call = .acceptEx → op.completion = none →
    s.connection op.slot = .closed

theorem mem_of_mem_set {posted : List Operation} {k : ℕ}
    {op₀ op₁ op : Operation}
    (hget : posted[k]? = some op₀) (hop : op ∈ posted.set k op₁) :
    op = op₁ ∨ op ∈ posted.eraseIdx k :=
  List.mem_cons.mp
    ((set_perm_cons_eraseIdx op₁ hget).mem_iff.mp hop)

/-- The connection of a slot changes while no accept is outstanding on it. -/
theorem Unaccepted.of_alone (hu : Unaccepted s) {k : ℕ} {op op' : Operation}
    (htokens : tokens op.slot s ≤ 1) (hget : s.posted[k]? = some op)
    (hcall : op.call ≠ .wsaSend)
    (hdone : op'.completion ≠ none) {next : Connection}
    (hposted : s'.posted = s.posted.set k op') (hmain : s'.main = s.main)
    (hconnection :
      s'.connection = Function.update s.connection op.slot next) :
    Unaccepted s' := by
  obtain ⟨hothers, howes, -⟩ := alone_of_posted htokens hget hcall rfl
  constructor
  · intro slot hslot
    rw [hmain] at hslot
    have hne : slot ≠ op.slot := by
      rintro rfl
      exact howes hslot
    rw [hconnection, Function.update_of_ne hne]
    exact hu.main slot hslot
  · intro other hother haccept hnone
    rw [hposted] at hother
    rcases mem_of_mem_set hget hother with rfl | hmem
    · exact absurd hnone hdone
    · have hne : other.slot ≠ op.slot :=
        hothers other hmem (by rw [haccept]; simp)
      rw [hconnection, Function.update_of_ne hne]
      exact hu.posted other (List.mem_of_mem_eraseIdx hmem) haccept hnone

/-- A completion that leaves the connections as they are. -/
theorem Unaccepted.of_set (hu : Unaccepted s) {k : ℕ} {op op' : Operation}
    (hget : s.posted[k]? = some op) (hdone : op'.completion ≠ none)
    (hposted : s'.posted = s.posted.set k op') (hmain : s'.main = s.main)
    (hconnection : s'.connection = s.connection) : Unaccepted s' := by
  constructor
  · intro slot hslot
    rw [hmain] at hslot
    rw [hconnection]
    exact hu.main slot hslot
  · intro other hother haccept hnone
    rw [hposted] at hother
    rw [hconnection]
    rcases mem_of_mem_set hget hother with rfl | hmem
    · exact absurd hnone hdone
    · exact hu.posted other (List.mem_of_mem_eraseIdx hmem) haccept hnone

theorem Unaccepted.step (hu : Unaccepted s)
    (htokens : ∀ slot, tokens slot s ≤ 1) (h : Step c handler s e s') :
    Unaccepted s' := by
  cases h with
  | acceptEnd | install | spawn =>
      exact ⟨fun slot hslot => False.elim hslot, hu.posted⟩
  | @acceptSkip client clients hmain | @acceptRefused client clients _ hmain =>
      refine ⟨?_, hu.posted⟩
      intro slot hslot
      apply hu.main slot
      rw [hmain]
      exact List.mem_cons_of_mem client hslot
  | acceptPop hmain =>
      refine ⟨?_, hu.posted⟩
      intro slot hslot
      apply hu.main slot
      rw [hmain]
      exact hslot
  | @acceptPost client clients p hmain =>
      constructor
      · intro slot hslot
        apply hu.main slot
        rw [hmain]
        exact List.mem_cons_of_mem client hslot
      · intro op hop haccept hnone
        rcases List.mem_cons.mp hop with rfl | hop
        · apply hu.main client
          rw [hmain]
          exact List.mem_cons_self
        · exact hu.posted op hop haccept hnone
  | dequeueFailed | dequeueDone =>
      exact ⟨hu.main,
        fun op hop => hu.posted op (List.mem_of_mem_eraseIdx hop)⟩
  | @post w answer overlapped client call p hpopped =>
      refine ⟨hu.main, ?_⟩
      intro op hop haccept hnone
      rcases List.mem_cons.mp hop with rfl | hop
      · cases call with
        | receiveReady => cases haccept
        | send => cases haccept
      · exact hu.posted op hop haccept hnone
  | acceptDone hget hclosed =>
      exact hu.of_alone (htokens _) hget (by simp) (by simp) rfl rfl rfl
  | @recvDone k data p client hget hfits hlive =>
      by_cases hdata : data = []
      · exact hu.of_alone (htokens _) hget (by simp) (by simp) rfl rfl
          (if_pos hdata)
      · exact hu.of_set hget (by simp) rfl rfl (if_neg hdata)
  | sendDone hget => exact hu.of_set hget (by simp) rfl rfl rfl
  | @fail k op hget hnone =>
      by_cases hsend : op.call = .wsaSend
      · exact hu.of_set hget (by simp) rfl rfl (if_pos hsend)
      · exact hu.of_alone (htokens _) hget hsend (by simp) rfl rfl
          (if_neg hsend)
  | _ => exact ⟨hu.main, hu.posted⟩

theorem age_run {es : List (Event α n)} {t : State n}
    (hrun : run (State.step c handler) s es = some t) (slot : ℕ) :
    (s.connection slot).age ≤ (t.connection slot).age := by
  induction es generalizing s with
  | nil =>
      obtain rfl := Option.some.inj hrun
      exact le_rfl
  | cons e es ih =>
      obtain ⟨s', hs', htail⟩ := Option.bind_eq_some_iff.mp hrun
      exact (age_step (State.step_cases hs').2 slot).trans (ih htail)

theorem arrived_run {es : List (Event α n)} {t : State n}
    (hrun : run (State.step c handler) s es = some t)
    (hended : s.connection slot = .ended) {data : List UInt8}
    (hdata : data ≠ []) :
    t.log.count (.arrived slot data) = s.log.count (.arrived slot data) := by
  induction es generalizing s with
  | nil =>
      obtain rfl := Option.some.inj hrun
      rfl
  | cons e es ih =>
      obtain ⟨s', hs', htail⟩ := Option.bind_eq_some_iff.mp hrun
      obtain ⟨-, h⟩ := State.step_cases hs'
      have hage := age_step h slot
      rw [hended] at hage
      rw [ih htail (Connection.eq_ended_of_age hage),
        arrived_step h hended hdata]

/-- Whatever fails in a run, a connection only gets older, at most one accept is
ever posted for a slot, and on a connection that has ended nothing arrives any
more: a slot serves one client and no second one. -/
theorem slot_serves_one_client {guard : State n → Event α n → Prop}
    (hs : Reachable (State.step c handler) (Started c) guard s)
    {es : List (Event α n)} {t : State n}
    (hrun : run (State.step c handler) s es = some t) (slot : ℕ) :
    (s.connection slot).age ≤ (t.connection slot).age ∧
      t.log.count (.accepting slot) ≤ 1 ∧
      (s.connection slot = .ended → ∀ data, data ≠ [] →
        t.log.count (.arrived slot data) =
          s.log.count (.arrived slot data)) := by
  refine ⟨age_run hrun slot, ?_, ?_⟩
  · have hle := accepts_le_one (.of_unguarded_run hs.unguarded hrun) slot
    exact (Nat.le_add_right _ _).trans hle
  · intro hended data hdata
    exact arrived_run hrun hended hdata

theorem slot_serves_one_client_firstConnection :
    ∃ t : State 2, run (State.step mainConfig fun _ _ (_ : Unit) => .returns)
        (initialized 2 mainConfig (fun _ => []) fun _ => [])
        (firstConnection 0 ()) = some t ∧
      t.log.count (.accepting 1) ≤ 1 := by
  have hruns : (run (State.step mainConfig fun _ _ (_ : Unit) => .returns)
      (initialized 2 mainConfig (fun _ => []) fun _ => [])
      (firstConnection 0 ())).isSome := by
    decide +kernel
  obtain ⟨t, hrun⟩ := Option.isSome_iff_exists.mp hruns
  have hstart : Reachable (State.step mainConfig fun _ _ (_ : Unit) => .returns)
      (Started mainConfig) unguarded
      (initialized 2 mainConfig (fun _ => []) fun _ => []) :=
    .start ⟨_, _, rfl⟩
  exact ⟨t, hrun, (slot_serves_one_client hstart hrun 1).2.1⟩

end RankingServer.Network
