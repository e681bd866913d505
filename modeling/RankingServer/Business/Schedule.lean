import RankingServer.Business.Provenance

/-!
# The schedule of the loop

Two facts about when a request is met in time.  In a run in which no player
sends a score that it already had, the condition is exact: the scores that are
not met are lost.  And the sleep and the phases around it bound when the next
save can begin: a request that comes too long before that is not met, whatever
the `SCAN` replies are, and its score is lost.
-/

namespace RankingServer.Business.WorkLoop

open Transition

variable {Date : Type*} {clock : Clock Date} {interval : ℕ}
  {s₀ s s' : State Date} {e : Event} {es : List Event}
  {playerId : List UInt8} {score : ℤ}

/-! ## Scores that are not met -/

/-- A request brings a score that the player did not have before. -/
def Fresh (s₀ s : State Date) : Event → Prop
  | .request _ playerId score _ =>
      ¬ Source s₀ s.acknowledged playerId score
  | .tick | .wake | .scan _ _ | .fetch | .execute | .finish => True

/-- The latest request of the player is less than 60 seconds old, and its score
is not in the table; when it is at hand, `reading` says so. -/
structure Unmerged (s : State Date) (playerId : List UInt8)
    (ack : Acknowledged) (reading : Bool) : Prop where
  latest : s.lastAcknowledged playerId = some ack
  young : s.time < ack.time + 60
  table : (s.table.lookup playerId).map ScoreRow.score ≠ some ack.score
  atHand : ∀ since data asOf keys cursor,
    s.phase = .scoreDataSave since (.executing data asOf keys cursor) →
      data.mPlayerId = playerId → data.mScore = ack.score → reading = true

variable {ack : Acknowledged} {reading : Bool}

theorem Unmerged.move (h : Unmerged s playerId ack reading) {phase : Phase}
    (hphase : ∀ since data asOf keys cursor,
      phase ≠ .scoreDataSave since (.executing data asOf keys cursor))
    (reading' : Bool) :
    Unmerged { s with phase := phase } playerId ack reading' :=
  ⟨h.latest, h.young, h.table, fun since data asOf keys cursor heq =>
    absurd heq (hphase since data asOf keys cursor)⟩

theorem Unmerged.tick (h : Unmerged s playerId ack reading)
    (hs : Current s.tick) (hdurable : Durable s.tick) :
    1 < ack.time + 60 - s.time ∧ Unmerged s.tick playerId ack reading := by
  have hyoung : s.tick.time < ack.time + 60 := by
    by_contra hold
    have hgone : s.tick.redis (scoreKey playerId) = none := by
      rw [← Option.not_isSome_iff_eq_none]
      rwa [hs.present playerId ack h.latest]
    exact h.table (hdurable playerId ack h.latest hgone)
  refine ⟨?_, h.latest, hyoung, h.table, h.atHand⟩
  change s.time + 1 < ack.time + 60 at hyoung
  omega

theorem Unmerged.acknowledge (h : Unmerged s playerId ack reading)
    {id text : List UInt8} (hid : id ≠ playerId) :
    Unmerged (s.acknowledge id text score) playerId ack reading := by
  refine ⟨?_, h.young, h.table, h.atHand⟩
  rw [lastAcknowledged_acknowledge, if_neg (Ne.symm hid)]
  exact h.latest

theorem Unmerged.fetch (h : Unmerged s playerId ack reading)
    (hs : Attributed s₀ s) {key : List UInt8} {data : Data_Score} {since : ℕ}
    {keys : List (List UInt8)} {cursor : ℤ}
    (hread : readScore ((s.redis (cString key)).map Entry.value) =
      some (some data)) :
    Unmerged
      { s with
        phase := .scoreDataSave since
          (.executing data s.acknowledged.length keys cursor) }
      playerId ack (some (cString key) = some (scoreKey playerId)) := by
  refine ⟨h.latest, h.young, h.table, ?_⟩
  rintro _ _ _ _ _ ⟨⟩ rfl -
  obtain ⟨entry, hentry, hsame⟩ := exists_entry_of_readScore hread
  obtain ⟨data', hdata, -⟩ := hs.cache (cString key) entry hentry
  obtain rfl := hsame data' hdata
  simpa using hdata.key

theorem Unmerged.execute (h : Unmerged s playerId ack false)
    (hs : Attributed s₀ s) {data : Data_Score} {since asOf : ℕ}
    {keys : List (List UInt8)} {cursor : ℤ}
    (hphase :
      s.phase = .scoreDataSave since (.executing data asOf keys cursor)) :
    Unmerged
      { s with
        table := mergeScore clock data s.table
        phase := .scoreDataSave since (.fetching keys cursor)
        saved := Function.update s.saved data.mPlayerId asOf }
      playerId ack false := by
  obtain ⟨⟨key, text, hdata⟩, -⟩ :=
    hs.reading since data asOf keys cursor hphase
  refine ⟨h.latest, h.young, ?_, by simp⟩
  rw [lookup_mergeScore hdata, Function.update_apply]
  split
  · next hid =>
      intro hscore
      have hreading := h.atHand since data asOf keys cursor hphase hid.symm
        (Option.some.inj hscore)
      cases hreading
  · exact h.table

/-- A step after which nothing is lost leaves the request unmerged, unless it
meets it. -/
theorem Unmerged.step (h : Unmerged s playerId ack reading)
    (hs : Attributed s₀ s) (hs' : Current s') (hdurable : Durable s')
    (hstep : Effect clock interval s e s')
    (hrest : ∀ reading', Unmerged s' playerId ack reading' →
      Met playerId (ack.time + 60 - s'.time) s'.phase.remaining reading' es) :
    Met playerId (ack.time + 60 - s.time) s.phase.remaining reading
      (e :: es) := by
  cases hstep with
  | tick =>
      obtain ⟨hlt, hnext⟩ := h.tick hs' hdurable
      refine ⟨hlt, ?_⟩
      rw [Nat.sub_sub]
      exact hrest reading hnext
  | @request _ id text score _ _ =>
      by_cases hid : id = playerId
      · exact .inl hid
      · exact .inr (hrest reading (h.acknowledge hid))
  | wake hphase =>
      rw [hphase]
      exact hrest reading (h.move (by simp) reading)
  | scan hphase => exact hrest false (h.move (by simp) false)
  | skip hphase _ =>
      rw [hphase]
      exact hrest _ (h.move (by simp) _)
  | fetch hphase hread =>
      rw [hphase]
      exact hrest _ (h.fetch hs hread)
  | again hphase =>
      rw [hphase]
      exact hrest _ (h.move (by simp) _)
  | saved hphase _ =>
      rw [hphase]
      exact hrest _ (h.move (by simp) _)
  | execute hphase =>
      cases reading with
      | true => exact .inl rfl
      | false =>
          rw [hphase]
          exact .inr (hrest false (h.execute hs hphase))
  | updated hphase _ =>
      rw [hphase]
      exact hrest reading (h.move (by simp) reading)
  | loaded hphase _ =>
      rw [hphase]
      exact hrest reading (h.move (by simp) reading)

/-- No player of the empty cache and table had a score. -/
theorem source_empty_iff {acknowledged : List Acknowledged} :
    Source empty acknowledged playerId score ↔
      ∃ ack ∈ acknowledged, ack.playerId = playerId ∧ ack.score = score := by
  constructor
  · rintro (⟨hack, hid, hscore⟩ | ⟨⟨⟩, -, -, -⟩ | ⟨⟨⟩, -⟩)
    exact ⟨_, hack, hid, hscore⟩
  · rintro ⟨ack, hack, hid, hscore⟩
    exact .request hack hid hscore

instance (s : State ℤ) : DecidablePred (Fresh empty s)
  | .request _ _ _ _ => decidable_of_iff _ (not_congr source_empty_iff).symm
  | .tick | .wake | .scan _ _ | .fetch | .execute | .finish =>
      inferInstanceAs (Decidable True)

/-- The earliest time at which the next save can begin, when none is going on:
the loop sleeps for `interval` minutes, and each phase takes a second at
least. -/
def Phase.earliest (interval time : ℕ) : Phase → Option ℕ
  | .sleeping since => some (max time (since + 60 * interval))
  | .scoreDataSave _ _ => none
  | .rankingUpdate since =>
      some (max time (since + 1) + 1 + 60 * interval)
  | .rankingDataLoad since => some (max time (since + 1) + 60 * interval)

theorem Phase.earliest_tick {phase : Phase} {time t : ℕ}
    (hnext : phase.earliest interval time = some t) :
    ∃ t', t ≤ t' ∧ phase.earliest interval (time + 1) = some t' := by
  cases phase with
  | scoreDataSave since point => cases hnext
  | sleeping since | rankingUpdate since | rankingDataLoad since =>
      cases hnext
      exact ⟨_, by omega, rfl⟩

/-- While no save is going on, the loop wakes up, or the next save comes no
earlier and the table stays. -/
theorem Effect.earliest (h : Effect clock interval s e s') {t : ℕ}
    (hnext : s.phase.earliest interval s.time = some t) :
    (e = .wake ∧ t ≤ s.time) ∨
      ((∃ t', t ≤ t' ∧ s'.phase.earliest interval s'.time = some t') ∧
        s'.table = s.table) := by
  cases h with
  | tick => exact .inr ⟨Phase.earliest_tick hnext, rfl⟩
  | request => exact .inr ⟨⟨t, le_rfl, hnext⟩, rfl⟩
  | wake hphase htime =>
      simp only [hphase, Phase.earliest, Option.some.injEq] at hnext
      exact .inl ⟨rfl, by omega⟩
  | updated hphase htime =>
      simp only [hphase, Phase.earliest, Option.some.injEq] at hnext
      exact .inr ⟨⟨_, by omega, rfl⟩, rfl⟩
  | loaded hphase htime =>
      simp only [hphase, Phase.earliest, Option.some.injEq] at hnext
      exact .inr ⟨⟨_, by omega, rfl⟩, rfl⟩
  | scan hphase | skip hphase | fetch hphase | again hphase | saved hphase
  | execute hphase =>
      simp only [hphase, Phase.earliest, reduceCtorEq] at hnext

theorem Effect.time_le (h : Effect clock interval s e s') :
    s.time ≤ s'.time := by
  cases h with
  | tick => exact Nat.le_succ _
  | request | wake | scan | skip | fetch | again | saved | execute | updated
  | loaded => exact le_rfl

theorem time_le_of_run
    (hrun : run (State.step clock interval) s es = some s') :
    s.time ≤ s'.time := by
  induction es generalizing s with
  | nil =>
      obtain rfl := Option.some.inj hrun
      exact le_rfl
  | cons e es ih =>
      simp only [run_cons, Option.bind_eq_some_iff] at hrun
      obtain ⟨u, hstep, hrest⟩ := hrun
      exact (State.effect hstep).time_le.trans (ih hrest)

theorem Effect.lastAcknowledged (h : Effect clock interval s e s')
    (hother : e.player ≠ some playerId) :
    s'.lastAcknowledged playerId = s.lastAcknowledged playerId := by
  cases h with
  | @request _ id =>
      have hid : playerId ≠ id := fun heq => hother (congrArg some heq.symm)
      rw [lastAcknowledged_acknowledge, if_neg hid]
  | tick | wake | scan | skip | fetch | again | saved | execute | updated
  | loaded => rfl

/-- Before the earliest beginning of the next save, nothing is merged. -/
theorem table_before_earliest {t : ℕ}
    (hnext : s.phase.earliest interval s.time = some t)
    (hrun : run (State.step clock interval) s es = some s')
    (hbefore : s'.time < t) (hother : ∀ e ∈ es, e.player ≠ some playerId) :
    s'.table = s.table ∧
      s'.lastAcknowledged playerId = s.lastAcknowledged playerId := by
  induction es generalizing s t with
  | nil =>
      obtain rfl := Option.some.inj hrun
      exact ⟨rfl, rfl⟩
  | cons e es ih =>
      simp only [run_cons, Option.bind_eq_some_iff] at hrun
      obtain ⟨u, hstep, hrest⟩ := hrun
      obtain ⟨he, hes⟩ := List.forall_mem_cons.mp hother
      have heffect := State.effect hstep
      rcases heffect.earliest hnext with
        ⟨-, hlate⟩ | ⟨⟨t', hle, hnext'⟩, htable⟩
      · have hmono := heffect.time_le.trans (time_le_of_run hrest)
        exact absurd (hlate.trans hmono) (not_le.mpr hbefore)
      · obtain ⟨htable', hlatest⟩ :=
          ih hnext' hrest (hbefore.trans_le hle) hes
        exact ⟨htable'.trans htable,
          hlatest.trans (heffect.lastAcknowledged he)⟩

/-- A request that comes 60 seconds or more before the next save can begin, and
that the player does not repeat, is gone when its 60 seconds are over, and
nothing was merged since it came: the score is lost, unless the table had it
before. -/
theorem lost_of_early
    (hs : Reachable (State.step clock interval) Started unguarded s)
    {socketId t : ℕ} {lastUpdate : ℤ} {s₁ : State Date}
    (hrequest : s.step clock interval
      (.request socketId playerId score lastUpdate) = some s₁)
    (hnext : s.phase.earliest interval s.time = some t)
    (hearly : s.time + 60 ≤ t)
    (hrun : run (State.step clock interval) s₁ (es ++ [.tick]) = some s')
    (hother : ∀ e ∈ es, e.player ≠ some playerId)
    (hover : s'.time = s.time + 60) :
    s'.redis (scoreKey playerId) = none ∧ s'.table = s.table ∧
      ((s.table.lookup playerId).map ScoreRow.score ≠ some score →
        ¬ Durable s') := by
  rw [run_append, Option.bind_eq_some_iff] at hrun
  obtain ⟨u, hu, htick⟩ := hrun
  have hs₁ := hs.next trivial hrequest
  have hu' := hs₁.of_unguarded_run hu
  have hcurrent : Current u :=
    hu'.invariant (fun _ => current_started)
      fun _ _ _ hs _ hstep => hs.step (State.effect hstep)
  obtain rfl : u.tick = s' := by simpa [State.step] using htick
  have heffect : Effect clock interval s _ s₁ := effect_of_request hrequest
  cases heffect with
  | @request _ _ text _ _ hentry =>
      change u.time + 1 = s.time + 60 at hover
      obtain ⟨htable, hlatest⟩ :=
        table_before_earliest (s := s.acknowledge playerId text score)
          hnext hu (by omega) hother
      rw [lastAcknowledged_acknowledge, if_pos rfl] at hlatest
      have hgone : u.tick.redis (scoreKey playerId) = none := by
        rw [← Option.not_isSome_iff_eq_none,
          hcurrent.tick.present playerId _ hlatest]
        change ¬ u.time + 1 < s.time + 60
        omega
      refine ⟨hgone, htable, fun hnew hdurable => hnew ?_⟩
      have hmerged := hdurable playerId _ hlatest hgone
      change (u.table.lookup playerId).map ScoreRow.score = some score
        at hmerged
      rwa [htable] at hmerged

/-- `RankingUpdate`, `RankingDataLoad` and most of the sleep after the first
save. -/
def afterSave : List Event :=
  [Event.tick, Event.finish, Event.tick, Event.finish] ++
    List.replicate 57 Event.tick

/-- A request during the first `RankingUpdate`, 62 seconds before the next save
can begin. -/
theorem lost_of_early_rankingUpdate :
    ∃ s s₁ s', run (State.step utcClock 1) empty (cycle []) = some s ∧
      s.step utcClock 1 (.request 1 (ascii "A") 100 0) = some s₁ ∧
      run (State.step utcClock 1) s₁ (afterSave ++ [.tick]) = some s' ∧
      s'.redis (scoreKey (ascii "A")) = none ∧ ¬ Durable s' := by
  have hruns : ∃ s ∈ run (State.step utcClock 1) empty (cycle []),
      s.phase.earliest 1 s.time = some 123 ∧ s.time = 61 ∧
      s.table.lookup (ascii "A") = none ∧
      ∃ s₁ ∈ s.step utcClock 1 (.request 1 (ascii "A") 100 0),
        ∃ s' ∈ run (State.step utcClock 1) s₁ (afterSave ++ [.tick]),
          s'.time = 121 := by
    decide +kernel
  obtain ⟨s, hrun, hnext, htime, hnone, s₁, hrequest, s', hafter, hover⟩ :=
    hruns
  have hs : Reachable (State.step utcClock 1) Started unguarded s :=
    .of_unguarded_run (.start started_empty) hrun
  obtain ⟨hgone, -, hlost⟩ :=
    lost_of_early hs hrequest hnext (by omega) hafter (by decide) (by omega)
  exact ⟨s, s₁, s', hrun, hrequest, hafter, hgone, hlost (by simp [hnone])⟩

end RankingServer.Business.WorkLoop
