import RankingServer.Business.DatabaseWorker
import RankingServer.Business.Hub
import RankingServer.Foundation.Transition

/-!
# The `Work` loop against the clock

`Response_SaveScore` stores a score in Redis for 60 seconds and acknowledges it;
the `Work` loop copies what it finds in Redis to the SQL table once in a cycle
of a sleep, a save, an update of the ranking and a reload of the ranking.  Time
passes between any two steps, each of the last three phases takes some, and
requests arrive at any point.

Redis holds only the entries of the score cache here: the other phases of the
loop touch neither them nor the table.  Which keys a `SCAN` returns is left
open, as long as they match its pattern.  Requests are numbered in the order in
which they are acknowledged; no step looks at the numbers.
-/

namespace RankingServer.Business.WorkLoop

open Transition

/-! ## The system -/

/-- A value in Redis with the time at which it expires. -/
structure Entry where
  value : List UInt8
  expiry : ℕ
deriving DecidableEq, Repr

/-- A save request that was acknowledged. -/
structure Acknowledged where
  playerId : List UInt8
  score : ℤ
  time : ℕ
  number : ℕ
deriving DecidableEq, Repr

/-- The program points of `ScoreDataSave`: before a `SCAN`, in the `for` loop,
and before the `SQLExecute` for an entry, which was read when `asOf` requests
had been acknowledged. -/
inductive Saving
  | scanning (cursor : ℤ)
  | fetching (keys : List (List UInt8)) (cursor : ℤ)
  | executing (data : Data_Score) (asOf : ℕ) (keys : List (List UInt8))
      (cursor : ℤ)
deriving DecidableEq, Repr

/-- The phases of the loop, with the times at which they began. -/
inductive Phase
  | sleeping (since : ℕ)
  | scoreDataSave (since : ℕ) (point : Saving)
  | rankingUpdate (since : ℕ)
  | rankingDataLoad (since : ℕ)
deriving DecidableEq, Repr

/-- `saved` records for each player the number of requests acknowledged before
the entry was read that was last merged for the player. -/
structure State (Date : Type*) where
  time : ℕ
  redis : List UInt8 → Option Entry
  table : ScoreTable Date
  phase : Phase
  acknowledged : List Acknowledged
  saved : List UInt8 → ℕ

/-- Events; `wake`, `scan`, `fetch`, `execute` and `finish` are steps of the
loop. -/
inductive Event
  | tick
  | request (socketId : ℕ) (playerId : List UInt8) (score lastUpdate : ℤ)
  | wake
  | scan (cursor : ℕ) (keys : List (List UInt8))
  | fetch
  | execute
  | finish
deriving DecidableEq, Repr

variable {Date : Type*}

namespace State

/-- The latest acknowledged request of a player. -/
def lastAcknowledged (s : State Date) (playerId : List UInt8) :
    Option Acknowledged :=
  s.acknowledged.find? fun ack => ack.playerId = playerId

def set (s : State Date) (command : SetCommand) : State Date :=
  { s with
    redis := Function.update s.redis command.key
      (some ⟨command.value, s.time + command.ttl⟩) }

/-- A second passes, and entries whose time has come leave Redis. -/
def tick (s : State Date) : State Date :=
  { s with
    time := s.time + 1
    redis := fun key =>
      (s.redis key).filter fun entry => s.time + 1 < entry.expiry }

/-- `Hub::Send` for a save request.  The ids fit the column. -/
def request (socketId : ℕ) (playerId : List UInt8) (score lastUpdate : ℤ)
    (s : State Date) : Option (State Date) :=
  if 0 ∉ playerId ∧ playerId.length ≤ PLAYER_ID_LENGTH ∧ IsInt score then
    match Hub.handle none socketId (.saveScore playerId score lastUpdate) with
    | .responded stored _ _ _ => some
        { stored.foldl set s with
          acknowledged :=
            ⟨playerId, score, s.time, s.acknowledged.length⟩ ::
              s.acknowledged }
    | .faulted _ | .thrown | .returned => none
  else none

/-- The reply to a `SCAN`. -/
def scan (cursor : ℕ) (keys : List (List UInt8)) (s : State Date) :
    Option (State Date) :=
  match s.phase with
  | .scoreDataSave since (.scanning _) =>
      if ∀ key ∈ keys, IsScoreKey key then
        (stoi cursor).map fun cursor =>
          { s with phase := .scoreDataSave since (.fetching keys cursor) }
      else none
  | _ => none

/-- The next `GET`, or the end of the `for` loop. -/
def fetch (s : State Date) : Option (State Date) :=
  match s.phase with
  | .scoreDataSave since (.fetching (key :: keys) cursor) =>
      match readScore ((s.redis (cString key)).map Entry.value) with
      | none => none
      | some none => some
          { s with phase := .scoreDataSave since (.fetching keys cursor) }
      | some (some data) => some
          { s with
            phase := .scoreDataSave since
              (.executing data s.acknowledged.length keys cursor) }
  | .scoreDataSave since (.fetching [] cursor) =>
      if cursor ≠ 0 then some
        { s with phase := .scoreDataSave since (.scanning cursor) }
      else if since < s.time then some
        { s with phase := .rankingUpdate s.time }
      else none
  | _ => none

/-- `SQLExecute` -/
def execute (clock : Clock Date) (s : State Date) : Option (State Date) :=
  match s.phase with
  | .scoreDataSave since (.executing data asOf keys cursor) => some
      { s with
        table := mergeScore clock data s.table
        phase := .scoreDataSave since (.fetching keys cursor)
        saved := Function.update s.saved data.mPlayerId asOf }
  | _ => none

/-- The end of `RankingUpdate` or `RankingDataLoad`. -/
def finish (s : State Date) : Option (State Date) :=
  match s.phase with
  | .rankingUpdate since =>
      if since < s.time then some { s with phase := .rankingDataLoad s.time }
      else none
  | .rankingDataLoad since =>
      if since < s.time then some { s with phase := .sleeping s.time }
      else none
  | _ => none

/-- One step; the loop sleeps for `interval` minutes. -/
def step (clock : Clock Date) (interval : ℕ) (s : State Date) :
    Event → Option (State Date)
  | .tick => some s.tick
  | .request socketId playerId score lastUpdate =>
      s.request socketId playerId score lastUpdate
  | .wake =>
      match s.phase with
      | .sleeping since =>
          if since + 60 * interval ≤ s.time then some
            { s with phase := .scoreDataSave s.time (.scanning 0) }
          else none
      | _ => none
  | .scan cursor keys => s.scan cursor keys
  | .fetch => s.fetch
  | .execute => s.execute clock
  | .finish => s.finish

end State

/-- The beginning of `Hub::Work`: Redis has entries from earlier loads and
saves. -/
structure Started (s : State Date) : Prop where
  cache : ∀ key entry, s.redis key = some entry →
    ∃ data, ScoreEntry key entry.value data
  time : s.time = 0
  phase : s.phase = .sleeping 0
  acknowledged : s.acknowledged = []
  saved : ∀ playerId, s.saved playerId = 0

/-! ## What a step can do -/

/-- The state after a request was acknowledged and its entry stored. -/
def State.acknowledge (playerId text : List UInt8) (score : ℤ)
    (s : State Date) : State Date :=
  { s.set ⟨scoreKey playerId, text, 60⟩ with
    acknowledged :=
      ⟨playerId, score, s.time, s.acknowledged.length⟩ :: s.acknowledged }

/-- The steps, one constructor for each of their branches. -/
inductive Effect (clock : Clock Date) (interval : ℕ) (s : State Date) :
    Event → State Date → Prop
  | tick : Effect clock interval s .tick s.tick
  | request {socketId : ℕ} {playerId text : List UInt8}
      {score lastUpdate : ℤ} :
      ScoreEntry (scoreKey playerId) text
          ⟨playerId, score, Hub.koreaTime lastUpdate⟩ →
        Effect clock interval s (.request socketId playerId score lastUpdate)
          (s.acknowledge playerId text score)
  | wake {since : ℕ} :
      s.phase = .sleeping since → since + 60 * interval ≤ s.time →
        Effect clock interval s .wake
          { s with phase := .scoreDataSave s.time (.scanning 0) }
  | scan {since reply : ℕ} {cursor next : ℤ} {keys : List (List UInt8)} :
      s.phase = .scoreDataSave since (.scanning cursor) →
        Effect clock interval s (.scan reply keys)
          { s with phase := .scoreDataSave since (.fetching keys next) }
  | skip {since : ℕ} {key : List UInt8} {keys : List (List UInt8)}
      {cursor : ℤ} :
      s.phase = .scoreDataSave since (.fetching (key :: keys) cursor) →
        readScore ((s.redis (cString key)).map Entry.value) = some none →
        Effect clock interval s .fetch
          { s with phase := .scoreDataSave since (.fetching keys cursor) }
  | fetch {since : ℕ} {key : List UInt8} {keys : List (List UInt8)}
      {cursor : ℤ} {data : Data_Score} :
      s.phase = .scoreDataSave since (.fetching (key :: keys) cursor) →
        readScore ((s.redis (cString key)).map Entry.value) =
            some (some data) →
        Effect clock interval s .fetch
          { s with
            phase := .scoreDataSave since
              (.executing data s.acknowledged.length keys cursor) }
  | again {since : ℕ} {cursor : ℤ} :
      s.phase = .scoreDataSave since (.fetching [] cursor) →
        Effect clock interval s .fetch
          { s with phase := .scoreDataSave since (.scanning cursor) }
  | saved {since : ℕ} {cursor : ℤ} :
      s.phase = .scoreDataSave since (.fetching [] cursor) →
        since < s.time →
        Effect clock interval s .fetch { s with phase := .rankingUpdate s.time }
  | execute {data : Data_Score} {since asOf : ℕ} {keys : List (List UInt8)}
      {cursor : ℤ} :
      s.phase = .scoreDataSave since (.executing data asOf keys cursor) →
        Effect clock interval s .execute
          { s with
            table := mergeScore clock data s.table
            phase := .scoreDataSave since (.fetching keys cursor)
            saved := Function.update s.saved data.mPlayerId asOf }
  | updated {since : ℕ} :
      s.phase = .rankingUpdate since → since < s.time →
        Effect clock interval s .finish
          { s with phase := .rankingDataLoad s.time }
  | loaded {since : ℕ} :
      s.phase = .rankingDataLoad since → since < s.time →
        Effect clock interval s .finish { s with phase := .sleeping s.time }

variable {clock : Clock Date} {interval : ℕ} {s s' : State Date} {e : Event}

theorem effect_of_request {socketId : ℕ} {playerId : List UInt8}
    {score lastUpdate : ℤ}
    (h : s.request socketId playerId score lastUpdate = some s') :
    Effect clock interval s (.request socketId playerId score lastUpdate)
      s' := by
  unfold State.request at h
  split at h
  · next hvalid =>
      obtain ⟨hid, hfits, hint⟩ := hvalid
      rw [Hub.handle] at h
      rcases Hub.response_SaveScore_cases socketId playerId score
          (Hub.koreaTime lastUpdate) with
        ⟨-, hthrown⟩ | ⟨text, htext, hresponded⟩
      · simp only [hthrown, reduceCtorEq] at h
      · simp only [hresponded, setCachedData_score hid htext, List.foldl_cons,
          List.foldl_nil, Option.some.injEq] at h
        subst h
        exact .request ⟨rfl, htext, hid, hint, hfits⟩
  · cases h

theorem effect_of_fetch (h : s.fetch = some s') :
    Effect clock interval s .fetch s' := by
  unfold State.fetch at h
  split at h
  · next hphase =>
      split at h
      · cases h
      · next hread =>
          simp only [Option.some.injEq] at h
          exact h ▸ .skip hphase hread
      · next hread =>
          simp only [Option.some.injEq] at h
          exact h ▸ .fetch hphase hread
  · next hphase =>
      split at h
      · simp only [Option.some.injEq] at h
        exact h ▸ .again hphase
      · split at h
        · next htime =>
            simp only [Option.some.injEq] at h
            exact h ▸ .saved hphase htime
        · cases h
  · cases h

theorem State.effect (h : s.step clock interval e = some s') :
    Effect clock interval s e s' := by
  cases e with
  | tick =>
      simp only [State.step, Option.some.injEq] at h
      exact h ▸ .tick
  | request socketId playerId score lastUpdate => exact effect_of_request h
  | wake =>
      simp only [State.step] at h
      split at h
      · next hphase =>
          split at h
          · next htime =>
              simp only [Option.some.injEq] at h
              exact h ▸ .wake hphase htime
          · cases h
      · cases h
  | scan cursor keys =>
      simp only [State.step, State.scan] at h
      split at h
      · next hphase =>
          split at h
          · obtain ⟨cursor, -, rfl⟩ := Option.map_eq_some_iff.mp h
            exact .scan hphase
          · cases h
      · cases h
  | fetch => exact effect_of_fetch h
  | execute =>
      simp only [State.step, State.execute] at h
      split at h
      · next hphase =>
          simp only [Option.some.injEq] at h
          exact h ▸ .execute hphase
      · cases h
  | finish =>
      simp only [State.step, State.finish] at h
      split at h
      · next hphase =>
          split at h
          · next htime =>
              simp only [Option.some.injEq] at h
              exact h ▸ .updated hphase htime
          · cases h
      · next hphase =>
          split at h
          · next htime =>
              simp only [Option.some.injEq] at h
              exact h ▸ .loaded hphase htime
          · cases h
      · cases h

/-! ## Requests and their entries -/

theorem mem_of_lastAcknowledged {playerId : List UInt8} {ack : Acknowledged}
    (h : s.lastAcknowledged playerId = some ack) :
    ack ∈ s.acknowledged ∧ ack.playerId = playerId :=
  ⟨List.mem_of_find?_eq_some h, by simpa using List.find?_some h⟩

theorem ScoreEntry.data_eq {key text : List UInt8} {data data' : Data_Score}
    (h : ScoreEntry key text data) (h' : ScoreEntry key text data') :
    data = data' :=
  Option.some.inj (Option.some.inj (h.readScore.symm.trans h'.readScore))

/-- What a `GET` reads is what the entry was written for. -/
theorem exists_entry_of_readScore {key : List UInt8} {data : Data_Score}
    (hread : readScore ((s.redis key).map Entry.value) = some (some data)) :
    ∃ entry, s.redis key = some entry ∧
      ∀ data', ScoreEntry key entry.value data' → data' = data := by
  cases hentry : s.redis key with
  | none =>
      rw [hentry] at hread
      cases hread
  | some entry =>
      rw [hentry] at hread
      exact ⟨entry, rfl, fun data' hdata =>
        Option.some.inj (Option.some.inj (hdata.readScore.symm.trans hread))⟩

theorem redis_acknowledge (s : State Date) (playerId text : List UInt8)
    (score : ℤ) (key : List UInt8) :
    (s.acknowledge playerId text score).redis key =
      if key = scoreKey playerId then some ⟨text, s.time + 60⟩
      else s.redis key :=
  Function.update_apply _ _ _ _

theorem lastAcknowledged_acknowledge (s : State Date)
    (playerId text : List UInt8) (score : ℤ) (id : List UInt8) :
    (s.acknowledge playerId text score).lastAcknowledged id =
      if id = playerId then
        some ⟨playerId, score, s.time, s.acknowledged.length⟩
      else s.lastAcknowledged id := by
  rw [State.lastAcknowledged, State.acknowledge, List.find?_cons]
  by_cases h : id = playerId
  · simp [h]
  · simp [h, Ne.symm h, State.lastAcknowledged]

theorem lastAcknowledged_started (hs : Started s) (playerId : List UInt8) :
    s.lastAcknowledged playerId = none := by
  rw [State.lastAcknowledged, hs.acknowledged]
  rfl

/-- An entry is that of the latest acknowledged request, and it is there as long
as the request is less than sixty seconds old. -/
structure Current (s : State Date) : Prop where
  own : ∀ playerId ack, s.lastAcknowledged playerId = some ack →
    ∀ entry, s.redis (scoreKey playerId) = some entry →
      entry.expiry = ack.time + 60 ∧
        ∃ lastUpdate, ScoreEntry (scoreKey playerId) entry.value
          ⟨playerId, ack.score, lastUpdate⟩
  present : ∀ playerId ack, s.lastAcknowledged playerId = some ack →
    ((s.redis (scoreKey playerId)).isSome ↔ s.time < ack.time + 60)

theorem current_started (hs : Started s) : Current s := by
  constructor
  · intro playerId ack hack
    rw [lastAcknowledged_started hs] at hack
    cases hack
  · intro playerId ack hack
    rw [lastAcknowledged_started hs] at hack
    cases hack

theorem Current.tick (hs : Current s) : Current s.tick := by
  constructor
  · intro playerId ack hack entry hentry
    exact hs.own playerId ack hack entry
      (Option.filter_eq_some_iff.mp hentry).1
  · intro playerId ack hack
    have hpresent := hs.present playerId ack hack
    change ((s.redis (scoreKey playerId)).filter fun entry =>
      s.time + 1 < entry.expiry).isSome ↔ s.time + 1 < ack.time + 60
    cases hentry : s.redis (scoreKey playerId) with
    | none =>
        rw [hentry] at hpresent
        simp only [Option.isSome_none, Bool.false_eq_true, false_iff]
          at hpresent
        simp only [Option.filter_none, Option.isSome_none, Bool.false_eq_true,
          false_iff]
        omega
    | some entry =>
        have hexpiry := (hs.own playerId ack hack entry hentry).1
        simp only [Option.isSome_filter, Option.any_some, decide_eq_true_eq,
          hexpiry]

theorem Current.acknowledge (hs : Current s) {playerId text : List UInt8}
    {score lastUpdate : ℤ}
    (hentry : ScoreEntry (scoreKey playerId) text
      ⟨playerId, score, lastUpdate⟩) :
    Current (s.acknowledge playerId text score) := by
  constructor
  · intro id ack hack entry h
    simp only [redis_acknowledge, scoreKey_injective.eq_iff] at h
    rw [lastAcknowledged_acknowledge] at hack
    by_cases hid : id = playerId
    · rw [if_pos hid, Option.some.injEq] at h hack
      subst hid h hack
      exact ⟨rfl, lastUpdate, hentry⟩
    · rw [if_neg hid] at h hack
      exact hs.own id ack hack entry h
  · intro id ack hack
    simp only [redis_acknowledge, scoreKey_injective.eq_iff]
    rw [lastAcknowledged_acknowledge] at hack
    by_cases hid : id = playerId
    · rw [if_pos hid, Option.some.injEq] at hack
      subst hid hack
      rw [if_pos rfl]
      exact iff_of_true rfl (Nat.lt_add_of_pos_right (by decide))
    · rw [if_neg hid] at hack ⊢
      exact hs.present id ack hack

theorem Current.step (hs : Current s) (h : Effect clock interval s e s') :
    Current s' := by
  cases h with
  | tick => exact hs.tick
  | request hentry => exact hs.acknowledge hentry
  | wake | scan | skip | fetch | again | saved | execute | updated | loaded =>
      exact ⟨hs.own, hs.present⟩

/-- While the request of a player is less than sixty seconds old, a `GET` for
its key returns its score. -/
theorem Current.readScore (hs : Current s) {playerId : List UInt8}
    {ack : Acknowledged} (hack : s.lastAcknowledged playerId = some ack)
    (hyoung : s.time < ack.time + 60) :
    ∃ lastUpdate,
      readScore ((s.redis (scoreKey playerId)).map Entry.value) =
        some (some ⟨playerId, ack.score, lastUpdate⟩) := by
  have hsome := (hs.present playerId ack hack).mpr hyoung
  obtain ⟨entry, hentry⟩ := Option.isSome_iff_exists.mp hsome
  obtain ⟨-, lastUpdate, hown⟩ := hs.own playerId ack hack entry hentry
  refine ⟨lastUpdate, ?_⟩
  rw [hentry]
  exact hown.readScore

end RankingServer.Business.WorkLoop
