import RankingServer.Business.WorkLoop

/-!
# Acknowledged scores

The entry of a score leaves Redis 60 seconds after the score was acknowledged.
No score is lost when every request is met in less than 60 seconds: by the next
request of the player, or by a save whose `SCAN` reply has the key of the player
and that comes to it and executes its statement.  This is a condition on the
order of requests, replies, steps of the loop and seconds in a run; that an
entry is still there when its key comes up, and that its score is the one that
is merged, are consequences.
-/

namespace RankingServer.Business.WorkLoop

open Transition

variable {Date : Type*} {clock : Clock Date} {interval : ℕ}
  {s s' : State Date} {e : Event} {es : List Event}

/-! ## Requests that are met -/

/-- A score whose entry is no longer in Redis is in the table. -/
def Durable (s : State Date) : Prop :=
  ∀ playerId ack, s.lastAcknowledged playerId = some ack →
    s.redis (scoreKey playerId) = none →
      (s.table.lookup playerId).map ScoreRow.score = some ack.score

/-- The keys of the last `SCAN` reply that the loop has not come to, after an
event. -/
def upcoming (keys : List (List UInt8)) : Event → List (List UInt8)
  | .scan _ reply => reply
  | .fetch => keys.tail
  | .tick | .request _ _ _ _ | .wake | .execute | .finish => keys

/-- In what follows a request of the player, less than `seconds` pass before the
player sends another request, or before the loop comes to the key of the player
in the reply to a `SCAN` and then to its next `SQLExecute`.  `keys` are those of
the last reply that it has not come to, and `reading` says that the one it came
to last is that of the player. -/
def Met (playerId : List UInt8) (seconds : ℕ) (keys : List (List UInt8))
    (reading : Bool) : List Event → Prop
  | [] => True
  | e :: es =>
      match e with
      | .tick => 1 < seconds ∧ Met playerId (seconds - 1) keys reading es
      | .request _ id _ _ =>
          id = playerId ∨ Met playerId seconds keys reading es
      | .scan _ reply => Met playerId seconds reply false es
      | .fetch =>
          Met playerId seconds keys.tail
            (keys.head?.map cString = some (scoreKey playerId)) es
      | .execute => reading = true ∨ Met playerId seconds keys reading es
      | .wake | .finish => Met playerId seconds keys reading es

/-- The player who sends a request. -/
def Event.player : Event → Option (List UInt8)
  | .request _ playerId _ _ => some playerId
  | .tick | .wake | .scan _ _ | .fetch | .execute | .finish => none

/-- Each request comes less than 60 seconds before the next one of the player,
or before a save comes to the key of the player and executes its statement. -/
def Timely : List (List UInt8) → List Event → Prop
  | _, [] => True
  | keys, e :: es =>
      (∀ playerId ∈ e.player, Met playerId 60 keys false es) ∧
        Timely (upcoming keys e) es

instance decidableMet (playerId : List UInt8) (seconds : ℕ)
    (keys : List (List UInt8)) (reading : Bool) :
    ∀ es, Decidable (Met playerId seconds keys reading es)
  | [] => inferInstanceAs (Decidable True)
  | e :: es =>
      match e with
      | .tick =>
          have := decidableMet playerId (seconds - 1) keys reading es
          inferInstanceAs (Decidable (_ ∧ _))
      | .request _ _ _ _ | .execute =>
          have := decidableMet playerId seconds keys reading es
          inferInstanceAs (Decidable (_ ∨ _))
      | .scan _ reply => decidableMet playerId seconds reply false es
      | .fetch =>
          decidableMet playerId seconds keys.tail
            (keys.head?.map cString = some (scoreKey playerId)) es
      | .wake | .finish => decidableMet playerId seconds keys reading es

instance decidableTimely : ∀ keys es, Decidable (Timely keys es)
  | _, [] => inferInstanceAs (Decidable True)
  | keys, e :: es =>
      have := decidableTimely (upcoming keys e) es
      inferInstanceAs (Decidable (_ ∧ _))

/-- The keys of the last reply that the loop has not come to. -/
def Phase.remaining : Phase → List (List UInt8)
  | .scoreDataSave _ (.fetching keys _)
  | .scoreDataSave _ (.executing _ _ keys _) => keys
  | .scoreDataSave _ (.scanning _) | .sleeping _ | .rankingUpdate _
  | .rankingDataLoad _ => []

/-- The loop comes to the keys in the order of the reply. -/
theorem Effect.remaining (h : Effect clock interval s e s') :
    s'.phase.remaining = upcoming s.phase.remaining e := by
  cases h with
  | tick => rfl
  | request => rfl
  | scan => rfl
  | wake hphase | skip hphase | fetch hphase | again hphase | saved hphase
  | execute hphase | updated hphase | loaded hphase =>
      rw [hphase]
      rfl

/-! ## What is known of the entries -/

/-- What holds of the entries in every state of a run, whether or not they
are merged in time. -/
structure Inv (s : State Date) : Prop where
  cache : ∀ key entry, s.redis key = some entry →
    ∃ data, ScoreEntry key entry.value data
  current : Current s
  number : ∀ ack ∈ s.acknowledged, ack.number < s.acknowledged.length
  saved : ∀ playerId, s.saved playerId ≤ s.acknowledged.length
  reading : ∀ since data asOf keys cursor,
    s.phase = .scoreDataSave since (.executing data asOf keys cursor) →
      (∃ key text, ScoreEntry key text data) ∧
        s.saved data.mPlayerId ≤ asOf ∧ asOf ≤ s.acknowledged.length ∧
          ∀ ack, s.lastAcknowledged data.mPlayerId = some ack →
            ack.number < asOf → data.mScore = ack.score
  merged : ∀ playerId ack, s.lastAcknowledged playerId = some ack →
    ack.number < s.saved playerId →
      (s.table.lookup playerId).map ScoreRow.score = some ack.score

theorem inv_started (hs : Started s) : Inv s := by
  constructor
  · exact hs.cache
  · exact current_started hs
  · rw [hs.acknowledged]
    simp
  · intro playerId
    rw [hs.saved]
    exact Nat.zero_le _
  · intro since data asOf keys cursor hphase
    rw [hs.phase] at hphase
    cases hphase
  · intro playerId ack hack
    rw [lastAcknowledged_started hs] at hack
    cases hack

theorem Inv.tick (hs : Inv s) : Inv s.tick :=
  ⟨fun key entry h => hs.cache key entry (Option.filter_eq_some_iff.mp h).1,
    hs.current.tick, hs.number, hs.saved, hs.reading, hs.merged⟩

theorem Inv.move (hs : Inv s) {phase : Phase}
    (hphase : ∀ since data asOf keys cursor,
      phase ≠ .scoreDataSave since (.executing data asOf keys cursor)) :
    Inv { s with phase := phase } :=
  ⟨hs.cache, ⟨hs.current.own, hs.current.present⟩, hs.number, hs.saved,
    fun since data asOf keys cursor h =>
      absurd h (hphase since data asOf keys cursor), hs.merged⟩

theorem Inv.fetch (hs : Inv s) {key : List UInt8} {data : Data_Score}
    {since : ℕ} {keys : List (List UInt8)} {cursor : ℤ}
    (hread : readScore ((s.redis key).map Entry.value) = some (some data)) :
    Inv
      { s with
        phase := .scoreDataSave since
          (.executing data s.acknowledged.length keys cursor) } := by
  refine ⟨hs.cache, ⟨hs.current.own, hs.current.present⟩, hs.number, hs.saved,
    ?_, hs.merged⟩
  rintro _ _ _ _ _ ⟨⟩
  obtain ⟨entry, hentry, hsame⟩ := exists_entry_of_readScore hread
  obtain ⟨data', hdata⟩ := hs.cache key entry hentry
  obtain rfl := hsame data' hdata
  refine ⟨⟨key, entry.value, hdata⟩, hs.saved _, le_rfl, fun ack hack _ => ?_⟩
  have hkey : scoreKey data'.mPlayerId = key := hdata.key.symm
  obtain ⟨-, lastUpdate, hown⟩ :=
    hs.current.own data'.mPlayerId ack hack entry (hkey ▸ hentry)
  rw [ScoreEntry.data_eq hdata (hkey ▸ hown)]

theorem Inv.acknowledge (hs : Inv s) {playerId text : List UInt8}
    {score lastUpdate : ℤ}
    (hentry : ScoreEntry (scoreKey playerId) text
      ⟨playerId, score, lastUpdate⟩) :
    Inv (s.acknowledge playerId text score) := by
  constructor
  · intro key entry h
    rw [redis_acknowledge] at h
    by_cases hkey : key = scoreKey playerId
    · rw [if_pos hkey, Option.some.injEq] at h
      subst hkey h
      exact ⟨_, hentry⟩
    · rw [if_neg hkey] at h
      exact hs.cache key entry h
  · exact hs.current.acknowledge hentry
  · intro ack hack
    rcases List.mem_cons.mp hack with rfl | hack
    · exact Nat.lt_succ_self _
    · exact Nat.lt_succ_of_lt (hs.number ack hack)
  · exact fun id => (hs.saved id).trans (Nat.le_succ _)
  · intro since data asOf keys cursor hphase
    obtain ⟨hdata, hsaved, hasOf, hscore⟩ :=
      hs.reading since data asOf keys cursor hphase
    refine ⟨hdata, hsaved, hasOf.trans (Nat.le_succ _), fun ack hack hlt => ?_⟩
    rw [lastAcknowledged_acknowledge] at hack
    by_cases hid : data.mPlayerId = playerId
    · -- the entry was read before this request
      rw [if_pos hid, Option.some.injEq] at hack
      subst hack
      exact absurd hasOf (not_le.mpr hlt)
    · rw [if_neg hid] at hack
      exact hscore ack hack hlt
  · intro id ack hack hlt
    rw [lastAcknowledged_acknowledge] at hack
    by_cases hid : id = playerId
    · rw [if_pos hid, Option.some.injEq] at hack
      subst hack
      exact absurd (hs.saved id) (not_le.mpr hlt)
    · rw [if_neg hid] at hack
      exact hs.merged id ack hack hlt

theorem Inv.execute (hs : Inv s) {data : Data_Score} {since asOf : ℕ}
    {keys : List (List UInt8)} {cursor : ℤ}
    (hphase :
      s.phase = .scoreDataSave since (.executing data asOf keys cursor)) :
    Inv
      { s with
        table := mergeScore clock data s.table
        phase := .scoreDataSave since (.fetching keys cursor)
        saved := Function.update s.saved data.mPlayerId asOf } := by
  obtain ⟨⟨key, text, hentry⟩, -, hasOf, hscore⟩ :=
    hs.reading since data asOf keys cursor hphase
  refine ⟨hs.cache, ⟨hs.current.own, hs.current.present⟩, hs.number,
    fun id => ?_, (by simp), fun id ack hack hlt => ?_⟩
  · by_cases hid : id = data.mPlayerId
    · subst hid
      simpa using hasOf
    · simpa [hid] using hs.saved id
  · have hread : ack.number <
        Function.update s.saved data.mPlayerId asOf id := hlt
    rw [lookup_mergeScore hentry]
    by_cases hid : id = data.mPlayerId
    · subst hid
      rw [Function.update_self] at hread ⊢
      exact congrArg some (hscore ack hack hread)
    · rw [Function.update_of_ne hid] at hread ⊢
      exact hs.merged id ack hack hread

theorem Inv.step (hs : Inv s) (h : Effect clock interval s e s') : Inv s' := by
  cases h with
  | tick => exact hs.tick
  | request hentry => exact hs.acknowledge hentry
  | fetch _ hread => exact hs.fetch hread
  | execute hphase => exact hs.execute hphase
  | wake | scan | skip | again | saved | updated | loaded =>
      exact hs.move (by simp)

/-! ## What is owed to a request -/

/-- The entry of the player is at hand, read after the request. -/
def AtHand (s : State Date) (playerId : List UInt8) (ack : Acknowledged) :
    Prop :=
  ∃ since data asOf keys cursor,
    s.phase = .scoreDataSave since (.executing data asOf keys cursor) ∧
      data.mPlayerId = playerId ∧ ack.number < asOf

/-- A latest request that was not merged yet is less than 60 seconds old, and
the events to come meet it before it is. -/
def Owed (s : State Date) (es : List Event) : Prop :=
  ∀ playerId ack, s.lastAcknowledged playerId = some ack →
    s.saved playerId ≤ ack.number →
      s.time < ack.time + 60 ∧ ∃ reading : Bool,
        (reading = true → AtHand s playerId ack) ∧
          Met playerId (ack.time + 60 - s.time) s.phase.remaining reading es

theorem durable_of_owed (hs : Inv s) (howed : Owed s es) : Durable s := by
  intro playerId ack hack hgone
  apply hs.merged playerId ack hack
  by_contra hunmerged
  obtain ⟨hyoung, -⟩ := howed playerId ack hack (not_lt.mp hunmerged)
  rw [← hs.current.present playerId ack hack, hgone] at hyoung
  cases hyoung

theorem owed_started (hs : Started s) : Owed s es := by
  intro playerId ack hack
  rw [lastAcknowledged_started hs] at hack
  cases hack

theorem Owed.tick (howed : Owed s (.tick :: es)) : Owed s.tick es := by
  intro playerId ack hack hunmerged
  obtain ⟨-, reading, hhand, hlt, hmet⟩ := howed playerId ack hack hunmerged
  have hseconds : ack.time + 60 - s.tick.time = ack.time + 60 - s.time - 1 :=
    (Nat.sub_sub _ _ _).symm
  refine ⟨by simp only [State.tick]; omega, reading, hhand, ?_⟩
  rw [hseconds]
  exact hmet

theorem Owed.acknowledge {socketId : ℕ} {playerId text : List UInt8}
    {score lastUpdate : ℤ}
    (howed : Owed s (.request socketId playerId score lastUpdate :: es))
    (hmet : Met playerId 60 s.phase.remaining false es) :
    Owed (s.acknowledge playerId text score) es := by
  intro id ack hack hunmerged
  rw [lastAcknowledged_acknowledge] at hack
  by_cases hid : id = playerId
  · rw [if_pos hid, Option.some.injEq] at hack
    subst hid hack
    refine ⟨Nat.lt_add_of_pos_right (by decide), false, nofun, ?_⟩
    change Met id (s.time + 60 - s.time) s.phase.remaining false es
    rwa [Nat.add_sub_cancel_left]
  · rw [if_neg hid] at hack
    obtain ⟨hyoung, reading, hhand, hrest⟩ := howed id ack hack hunmerged
    exact ⟨hyoung, reading, hhand, hrest.resolve_left (Ne.symm hid)⟩

/-- The loop goes on to a point at which no entry is at hand. -/
theorem Owed.move (howed : Owed s (e :: es)) {phase : Phase}
    (hmet : ∀ playerId ack reading, s.lastAcknowledged playerId = some ack →
      s.time < ack.time + 60 → (reading = true → AtHand s playerId ack) →
        Met playerId (ack.time + 60 - s.time) s.phase.remaining reading
          (e :: es) →
        Met playerId (ack.time + 60 - s.time) phase.remaining false es) :
    Owed { s with phase := phase } es := by
  intro playerId ack hack hunmerged
  obtain ⟨hyoung, reading, hhand, hrest⟩ := howed playerId ack hack hunmerged
  exact ⟨hyoung, false, nofun,
    hmet playerId ack reading hack hyoung hhand hrest⟩

theorem reading_eq_false {playerId : List UInt8} {ack : Acknowledged}
    {reading : Bool} {phase : Phase}
    (hhand : reading = true → AtHand s playerId ack) (hphase : s.phase = phase)
    (hnone : ∀ since data asOf keys cursor,
      phase ≠ .scoreDataSave since (.executing data asOf keys cursor)) :
    reading = false := by
  by_contra hreading
  obtain ⟨since, data, asOf, keys, cursor, hexecuting, -⟩ :=
    hhand (Bool.eq_true_of_not_eq_false hreading)
  exact hnone since data asOf keys cursor (hphase.symm.trans hexecuting)

theorem Owed.wake {since : ℕ} (howed : Owed s (.wake :: es))
    (hphase : s.phase = .sleeping since) :
    Owed { s with phase := .scoreDataSave s.time (.scanning 0) } es := by
  apply howed.move
  intro playerId ack reading _ _ hhand hmet
  rw [reading_eq_false hhand hphase (by simp), hphase] at hmet
  exact hmet

/-- The ends of `RankingUpdate` and `RankingDataLoad`. -/
theorem Owed.finish (howed : Owed s (.finish :: es)) {phase phase' : Phase}
    (hphase : s.phase = phase)
    (hnone : ∀ since data asOf keys cursor,
      phase ≠ .scoreDataSave since (.executing data asOf keys cursor))
    (hremaining : phase.remaining = phase'.remaining) :
    Owed { s with phase := phase' } es := by
  apply howed.move
  intro playerId ack reading _ _ hhand hmet
  rw [reading_eq_false hhand hphase hnone, hphase, hremaining] at hmet
  exact hmet

theorem Owed.scan {since reply : ℕ} {next : ℤ} {keys : List (List UInt8)}
    (howed : Owed s (.scan reply keys :: es)) :
    Owed { s with phase := .scoreDataSave since (.fetching keys next) } es :=
  howed.move fun _ _ _ _ _ _ hmet => hmet

/-- A key that has no entry is not that of a young request. -/
theorem Owed.skip {since : ℕ} {key : List UInt8} {keys : List (List UInt8)}
    {cursor : ℤ} (hs : Inv s) (howed : Owed s (.fetch :: es))
    (hphase : s.phase = .scoreDataSave since (.fetching (key :: keys) cursor))
    (hread : readScore ((s.redis (cString key)).map Entry.value) = some none) :
    Owed { s with phase := .scoreDataSave since (.fetching keys cursor) }
      es := by
  apply howed.move
  intro playerId ack reading hack hyoung _ hmet
  have hkey : cString key ≠ scoreKey playerId := by
    intro hkey
    obtain ⟨lastUpdate, hscore⟩ := hs.current.readScore hack hyoung
    rw [← hkey, hread] at hscore
    cases hscore
  have hreading :
      decide (some (cString key) = some (scoreKey playerId)) = false := by
    simpa using hkey
  rw [hphase] at hmet
  change Met playerId _ keys
    (decide (some (cString key) = some (scoreKey playerId))) es at hmet
  rw [hreading] at hmet
  exact hmet

theorem Owed.fetch {since : ℕ} {key : List UInt8} {keys : List (List UInt8)}
    {cursor : ℤ} {data : Data_Score} (hs : Inv s)
    (howed : Owed s (.fetch :: es))
    (hphase : s.phase = .scoreDataSave since (.fetching (key :: keys) cursor))
    (hread : readScore ((s.redis (cString key)).map Entry.value) =
      some (some data)) :
    Owed
      { s with
        phase := .scoreDataSave since
          (.executing data s.acknowledged.length keys cursor) } es := by
  intro playerId ack hack hunmerged
  obtain ⟨hyoung, reading, -, hmet⟩ := howed playerId ack hack hunmerged
  rw [hphase] at hmet
  refine ⟨hyoung, _, fun hreading => ?_, hmet⟩
  have hkey : cString key = scoreKey playerId := by
    simpa [Phase.remaining] using hreading
  obtain ⟨lastUpdate, hscore⟩ := hs.current.readScore hack hyoung
  rw [← hkey, hread] at hscore
  obtain rfl := Option.some.inj (Option.some.inj hscore)
  exact ⟨_, _, _, _, _, rfl, rfl,
    hs.number ack (mem_of_lastAcknowledged hack).1⟩

/-- The end of the `for` loop. -/
theorem Owed.end_for {since : ℕ} {cursor : ℤ} {phase : Phase}
    (howed : Owed s (.fetch :: es))
    (hphase : s.phase = .scoreDataSave since (.fetching [] cursor))
    (hremaining : phase.remaining = []) :
    Owed { s with phase := phase } es := by
  apply howed.move
  intro playerId ack reading _ _ _ hmet
  rw [hphase] at hmet
  rw [hremaining]
  exact hmet

/-- An entry read after the request is merged, and nothing is owed to it. -/
theorem Owed.execute {data : Data_Score} {since asOf : ℕ}
    {keys : List (List UInt8)} {cursor : ℤ} (hs : Inv s)
    (howed : Owed s (.execute :: es))
    (hphase :
      s.phase = .scoreDataSave since (.executing data asOf keys cursor)) :
    Owed
      { s with
        table := mergeScore clock data s.table
        phase := .scoreDataSave since (.fetching keys cursor)
        saved := Function.update s.saved data.mPlayerId asOf } es := by
  intro playerId ack hack hunmerged
  change Function.update s.saved data.mPlayerId asOf playerId ≤ ack.number
    at hunmerged
  have hbefore : s.saved playerId ≤ ack.number := by
    by_cases hid : playerId = data.mPlayerId
    · subst hid
      rw [Function.update_self] at hunmerged
      exact (hs.reading _ _ _ _ _ hphase).2.1.trans hunmerged
    · rwa [Function.update_of_ne hid] at hunmerged
  obtain ⟨hyoung, reading, hhand, hmet⟩ := howed playerId ack hack hbefore
  have hreading : reading = false := by
    by_contra hreading
    obtain ⟨_, _, _, _, _, hexecuting, rfl, hlt⟩ :=
      hhand (Bool.eq_true_of_not_eq_false hreading)
    rw [hphase] at hexecuting
    cases hexecuting
    rw [Function.update_self] at hunmerged
    exact absurd hlt (not_lt.mpr hunmerged)
  subst hreading
  rw [hphase] at hmet
  exact ⟨hyoung, false, nofun, hmet.resolve_left (by decide)⟩

theorem Owed.step (hs : Inv s) (ht : Timely s.phase.remaining (e :: es))
    (howed : Owed s (e :: es)) (h : Effect clock interval s e s') :
    Owed s' es := by
  cases h with
  | tick => exact howed.tick
  | request => exact howed.acknowledge (ht.1 _ rfl)
  | wake hphase => exact howed.wake hphase
  | scan => exact howed.scan
  | skip hphase hread => exact howed.skip hs hphase hread
  | fetch hphase hread => exact howed.fetch hs hphase hread
  | again hphase => exact howed.end_for hphase rfl
  | saved hphase => exact howed.end_for hphase rfl
  | execute hphase => exact howed.execute hs hphase
  | updated hphase => exact howed.finish hphase (by simp) rfl
  | loaded hphase => exact howed.finish hphase (by simp) rfl

theorem throughout_durable (hs : Inv s) (howed : Owed s es)
    (ht : Timely s.phase.remaining es) :
    Throughout (State.step clock interval) Durable s es := by
  induction es generalizing s with
  | nil => exact durable_of_owed hs howed
  | cons e es ih =>
      refine ⟨durable_of_owed hs howed, fun s' hstep => ?_⟩
      have heffect := State.effect hstep
      apply ih (hs.step heffect) (howed.step hs ht heffect)
      rw [heffect.remaining]
      exact ht.2

/-- If every request comes less than 60 seconds before the player's next one or
the save that comes to its key, no acknowledged score is lost. -/
theorem durable_of_timely (hs : Started s) (ht : Timely [] es) :
    Throughout (State.step clock interval) Durable s es := by
  apply throughout_durable (inv_started hs) (owed_started hs)
  rw [hs.phase]
  exact ht

/-! ## Two runs -/

/-- The beginning of the loop with an empty cache and an empty table. -/
def empty : State ℤ where
  time := 0
  redis := fun _ => none
  table := ⟨[], List.nodup_nil⟩
  phase := .sleeping 0
  acknowledged := []
  saved := fun _ => 0

theorem started_empty : Started empty :=
  ⟨(by rintro _ _ ⟨⟩), rfl, rfl, rfl, fun _ => rfl⟩

/-- A cycle whose save finds the entries with the given keys. -/
def cycle (keys : List (List UInt8)) : List Event :=
  List.replicate 60 Event.tick ++ [Event.wake, Event.scan 0 keys] ++
    (keys.flatMap fun _ => [Event.fetch, Event.execute]) ++
    [Event.tick, Event.fetch]

/-- A request during the first sleep is saved in the first cycle, a quarter of a
minute before its entry leaves Redis. -/
def earlyRequest : List Event :=
  List.replicate 15 Event.tick ++ [Event.request 1 (ascii "A") 100 0] ++
    (cycle [scoreKey (ascii "A")]).drop 15 ++ List.replicate 30 Event.tick

theorem durable_of_earlyRequest :
    ∃ s, run (State.step utcClock 1) empty earlyRequest = some s ∧
      s.redis (scoreKey (ascii "A")) = none ∧ Durable s := by
  have hruns : ∃ s ∈ run (State.step utcClock 1) empty earlyRequest,
      s.redis (scoreKey (ascii "A")) = none := by
    decide +kernel
  have htimely : Timely [] earlyRequest := by
    decide +kernel
  obtain ⟨s, hrun, hgone⟩ := hruns
  exact ⟨s, hrun, hgone,
    (durable_of_timely started_empty htimely).last hrun⟩

/-- A request during the first `RankingUpdate` is gone before the second save
begins. -/
def lateRequest : List Event :=
  cycle [] ++
    [Event.request 1 (ascii "A") 100 0, Event.tick, Event.finish, Event.tick,
      Event.finish] ++
    List.replicate 60 Event.tick ++ [Event.wake]

/-- The entry expires between two saves, and the score is lost. -/
theorem not_durable_of_lateRequest :
    ¬ ∀ s : State ℤ,
      Reachable (State.step utcClock 1) Started unguarded s → Durable s := by
  have hruns : ∃ s ∈ run (State.step utcClock 1) empty lateRequest,
      s.lastAcknowledged (ascii "A") = some ⟨ascii "A", 100, 61, 0⟩ ∧
        s.redis (scoreKey (ascii "A")) = none ∧
          s.table.lookup (ascii "A") = none := by
    decide +kernel
  obtain ⟨s, hrun, hack, hgone, hlookup⟩ := hruns
  intro hall
  have hdurable := hall s (.of_unguarded_run (.start started_empty) hrun)
    (ascii "A") _ hack hgone
  rw [hlookup] at hdurable
  cases hdurable

end RankingServer.Business.WorkLoop
