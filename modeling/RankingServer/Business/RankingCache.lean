import RankingServer.Business.Ranking
import RankingServer.Business.WorkLoop

/-!
# The ranking cache against the clock

The `Work` loop reloads the ranking once in a cycle.  A load overwrites the
entries of the players it fetches, one after the other, and each entry expires
600 seconds after it was stored; nothing removes the entries of players that are
no longer fetched.

Redis holds only the entries of the ranking cache here, the others have other
keys.  The log records which rows were cached when, newest first; no step reads
it.
-/

namespace RankingServer.Business.RankingCache

open Transition
open WorkLoop (Entry)

/-! ## The system -/

/-- A row that was cached, with the time. -/
structure Cached where
  row : RankingRow
  time : ℕ
deriving DecidableEq, Repr

/-- The phases of the loop: asleep or in the other parts of a cycle since the
end of a load, in a load with the rows of the result and those of them that are
yet to be cached, and at the end of a load. -/
inductive Phase
  | sleeping (since : ℕ)
  | loading (fetched pending : List RankingRow)
  | loaded (fetched : List RankingRow)
deriving DecidableEq, Repr

structure State where
  time : ℕ
  redis : List UInt8 → Option Entry
  phase : Phase
  log : List Cached

/-- Events; `query` executes the statement of `RankingDataLoad`, `set` fetches
and caches a row of its result. -/
inductive Event
  | tick
  | query (fetched : List RankingRow)
  | set
  | finish
deriving DecidableEq, Repr

/-- The results of the statement: the rank is the primary key. -/
structure Result (fetched : List RankingRow) : Prop where
  ranks : (fetched.map RankingRow.rank).Nodup
  isInt : ∀ row ∈ fetched, IsInt row.rank ∧ IsInt row.score
  count : fetched.length ≤ 100

instance : DecidablePred Result := fun fetched =>
  decidable_of_iff ((fetched.map RankingRow.rank).Nodup ∧
      (∀ row ∈ fetched, IsInt row.rank ∧ IsInt row.score) ∧
      fetched.length ≤ 100)
    ⟨fun h => ⟨h.1, h.2.1, h.2.2⟩, fun h => ⟨h.ranks, h.isInt, h.count⟩⟩

namespace State

/-- A second passes, and entries whose time has come leave Redis. -/
def tick (s : State) : State :=
  { s with
    time := s.time + 1
    redis := fun key =>
      (s.redis key).filter fun entry => s.time + 1 < entry.expiry
    phase :=
      match s.phase with
      | .loaded _ => .sleeping s.time
      | .sleeping since => .sleeping since
      | .loading fetched pending => .loading fetched pending }

/-- The row is cached with the command. -/
def store (s : State) (row : RankingRow) (command : SetCommand)
    (fetched pending : List RankingRow) : State :=
  { s with
    redis := Function.update s.redis command.key
      (some ⟨command.value, s.time + command.ttl⟩)
    phase := .loading fetched pending
    log := ⟨row, s.time⟩ :: s.log }

/-- One step.  A minute and more passes from the end of a load to the next. -/
def step (s : State) : Event → Option State
  | .tick => some s.tick
  | .query fetched =>
      match s.phase with
      | .sleeping since =>
          if since + 60 ≤ s.time ∧ Result fetched then
            some { s with phase := .loading fetched fetched }
          else none
      | .loading _ _ | .loaded _ => none
  | .set =>
      match s.phase with
      | .loading fetched (row :: pending) =>
          row.setCommand.map fun command =>
            s.store row command fetched pending
      | .loading _ [] | .sleeping _ | .loaded _ => none
  | .finish =>
      match s.phase with
      | .loading fetched [] => some { s with phase := .loaded fetched }
      | .loading _ (_ :: _) | .sleeping _ | .loaded _ => none

/-- The beginning, with nothing cached. -/
def initial : State where
  time := 0
  redis := fun _ => none
  phase := .sleeping 0
  log := []

/-! ## What should hold -/

/-- The response to a ranking request of the player. -/
def response (s : State) (socketId : ℕ) (playerId : List UInt8) : Outcome :=
  Hub.response_PlayerRanking
    ((s.redis (cString (rankingKey playerId))).map Entry.value) socketId
    playerId

end State

/-- The entry is the one that is cached for the row. -/
def IsEntryOf (row : RankingRow) (key : List UInt8) (entry : Entry) : Prop :=
  ∃ command, row.setCommand = some command ∧ command.key = key ∧
    command.value = entry.value

/-- The cache has the entries of the fetched rows and no others, and only their
players are told that they are in the ranking. -/
structure Exact (s : State) (fetched : List RankingRow) : Prop where
  cached : ∀ row ∈ fetched, ∃ entry, s.redis row.key = some entry ∧
    IsEntryOf row row.key entry
  live : ∀ key entry, s.redis key = some entry →
    ∃ row ∈ fetched, IsEntryOf row key entry
  others : ∀ socketId playerId,
    (∀ row ∈ fetched, row.key ≠ cString (rankingKey playerId)) →
      s.response socketId playerId =
        .responded [] socketId
          Protocol.MessageContent_RESPONSE_PLAYER_RANKING
          (Protocol.responsePlayerRanking playerId 0 0 false true)

/-- No two entries have the same rank. -/
def DistinctRanks (s : State) : Prop :=
  ∀ key key' entry entry' data data', key ≠ key' →
    s.redis key = some entry → s.redis key' = some entry' →
      readRanking (some entry.value) = some data →
        readRanking (some entry'.value) = some data' →
          data.mRrank ≠ data'.mRrank

/-- At the end of a load the cache is exact, and ranks are distinct at any
time. -/
structure NoStaleRanks (s : State) : Prop where
  exact : ∀ fetched, s.phase = .loaded fetched → Exact s fetched
  distinct : DistinctRanks s

/-! ## When it does -/

/-- The row was cached less than 600 seconds ago. -/
def Cached.Recent (c : Cached) (s : State) : Prop := s.time < c.time + 600

/-- The last row that was cached for a player. -/
def State.lastCached (s : State) (key : List UInt8) : Option Cached :=
  s.log.find? fun c => c.row.key = key

/-- When a load ends, its players are distinct in what their keys retain of the
ids, it has taken less than 600 seconds, and no one else was cached in the last
600 seconds; and when a row is cached, no other player's last row is recent and
of the same rank. -/
def Fresh (s : State) : Event → Prop
  | .tick | .query _ => True
  | .set => ∀ fetched row pending,
      s.phase = .loading fetched (row :: pending) →
        ∀ key c, key ≠ row.key → s.lastCached key = some c → c.Recent s →
          c.row.rank ≠ row.rank
  | .finish => ∀ fetched, s.phase = .loading fetched [] →
      (fetched.map RankingRow.key).Nodup ∧
        (∀ c ∈ s.log.take fetched.length, c.Recent s) ∧
        ∀ c ∈ s.log, c.Recent s → c.row.key ∈ fetched.map RankingRow.key

/-! ## The cache as a function of the log -/

/-- The entry that was made when the row was cached. -/
def Cached.entry (c : Cached) : Option Entry :=
  c.row.setCommand.map fun command =>
    ⟨command.value, c.time + command.ttl⟩

/-- What holds in every state of a run. -/
structure Sound (s : State) : Prop where
  redis : ∀ key entry, s.redis key = some entry ↔
    ∃ c, s.lastCached key = some c ∧ c.Recent s ∧ c.entry = some entry
  stored : ∀ c ∈ s.log, c.row.setCommand.isSome ∧ IsInt c.row.rank
  past : ∀ c ∈ s.log, c.time ≤ s.time
  sorted : s.log.Pairwise fun c c' => c'.time ≤ c.time
  loading : ∀ fetched pending, s.phase = .loading fetched pending →
    Result fetched ∧ ∃ done, fetched = done ++ pending ∧
      (s.log.take done.length).map Cached.row = done.reverse

variable {s s' : State} {e : Event} {c : Cached} {entry : Entry}
  {key : List UInt8}

theorem Cached.entry_eq_some_iff :
    c.entry = some entry ↔
      IsEntryOf c.row c.row.key entry ∧ entry.expiry = c.time + 600 := by
  obtain ⟨value, expiry⟩ := entry
  rw [Cached.entry, Option.map_eq_some_iff]
  constructor
  · rintro ⟨command, hcommand, hentry⟩
    obtain ⟨text, -, rfl⟩ := RankingRow.setCommand_eq_some_iff.mp hcommand
    cases hentry
    exact ⟨⟨_, hcommand, rfl, rfl⟩, rfl⟩
  · rintro ⟨⟨command, hcommand, -, rfl⟩, rfl⟩
    obtain ⟨text, -, rfl⟩ := RankingRow.setCommand_eq_some_iff.mp hcommand
    exact ⟨_, hcommand, rfl⟩

theorem State.mem_log_of_lastCached (h : s.lastCached key = some c) :
    c ∈ s.log ∧ c.row.key = key :=
  ⟨List.mem_of_find?_eq_some h, by simpa using List.find?_some h⟩

/-- A row that was cached has an entry. -/
theorem Sound.exists_entry (hs : Sound s) (hc : c ∈ s.log) :
    ∃ entry, c.entry = some entry := by
  obtain ⟨command, hcommand⟩ :=
    Option.isSome_iff_exists.mp (hs.stored c hc).1
  exact ⟨_, congrArg (Option.map _) hcommand⟩

theorem State.step_query {fetched : List RankingRow}
    (h : s.step (.query fetched) = some s') :
    ∃ since, s.phase = .sleeping since ∧ since + 60 ≤ s.time ∧
      Result fetched ∧ s' = { s with phase := .loading fetched fetched } := by
  simp only [State.step] at h
  split at h
  · next since hphase =>
      split at h
      · next hguard =>
          cases h
          exact ⟨since, hphase, hguard.1, hguard.2, rfl⟩
      · cases h
  · cases h
  · cases h

theorem State.step_set (h : s.step .set = some s') :
    ∃ fetched row pending command,
      s.phase = .loading fetched (row :: pending) ∧
        row.setCommand = some command ∧
          s' = s.store row command fetched pending := by
  simp only [State.step] at h
  split at h
  · next fetched row pending hphase =>
      obtain ⟨command, hcommand, rfl⟩ := Option.map_eq_some_iff.mp h
      exact ⟨fetched, row, pending, command, hphase, hcommand, rfl⟩
  · cases h
  · cases h
  · cases h

theorem State.step_finish (h : s.step .finish = some s') :
    ∃ fetched, s.phase = .loading fetched [] ∧
      s' = { s with phase := .loaded fetched } := by
  simp only [State.step] at h
  split at h
  · next fetched hphase =>
      cases h
      exact ⟨fetched, hphase, rfl⟩
  · cases h
  · cases h
  · cases h

/-- Of the log, the last row that was cached for a player has the latest
time. -/
theorem Sound.time_le_lastCached (hs : Sound s) (hc : c ∈ s.log)
    {last : Cached} (hlast : s.lastCached c.row.key = some last) :
    c.time ≤ last.time := by
  obtain ⟨-, newer, older, hlog, hnewer⟩ :=
    List.find?_eq_some_iff_append.mp hlast
  have hsorted := hs.sorted
  rw [hlog] at hc hsorted
  rcases List.mem_append.mp hc with hc | hc
  · simpa using hnewer c hc
  · rcases List.mem_cons.mp hc with rfl | hc
    · exact le_rfl
    · have htail := (List.pairwise_append.mp hsorted).2.1
      exact List.rel_of_pairwise_cons htail hc

/-- While a row is recent its player has an entry: that of the last row that was
cached for the player. -/
theorem Sound.live_of_recent (hs : Sound s) (hc : c ∈ s.log)
    (hrecent : c.Recent s) :
    ∃ last entry, s.lastCached c.row.key = some last ∧ last.Recent s ∧
      last.entry = some entry ∧ s.redis c.row.key = some entry := by
  have hsome : (s.lastCached c.row.key).isSome := by
    rw [State.lastCached, List.find?_isSome]
    exact ⟨c, hc, by simp⟩
  obtain ⟨last, hlast⟩ := Option.isSome_iff_exists.mp hsome
  have htime := hs.time_le_lastCached hc hlast
  have hrecent' : last.Recent s := by
    unfold Cached.Recent at *
    omega
  obtain ⟨entry, hentry⟩ :=
    hs.exists_entry (State.mem_log_of_lastCached hlast).1
  exact ⟨last, entry, hlast, hrecent', hentry,
    (hs.redis _ _).mpr ⟨last, hlast, hrecent', hentry⟩⟩

theorem phase_tick {fetched pending : List RankingRow}
    (h : s.tick.phase = .loading fetched pending) :
    s.phase = .loading fetched pending := by
  unfold State.tick at h
  split at h <;> simp_all

theorem Sound.tick (hs : Sound s) : Sound s.tick := by
  refine ⟨fun key entry => ?_, hs.stored,
    fun c hc => (hs.past c hc).trans (Nat.le_succ _), hs.sorted,
    fun fetched pending hphase =>
      hs.loading fetched pending (phase_tick hphase)⟩
  change (s.redis key).filter _ = some entry ↔ _
  rw [Option.filter_eq_some_iff, hs.redis, decide_eq_true_eq]
  constructor
  · rintro ⟨⟨c, hlast, -, hentry⟩, hlt⟩
    rw [(Cached.entry_eq_some_iff.mp hentry).2] at hlt
    exact ⟨c, hlast, hlt, hentry⟩
  · rintro ⟨c, hlast, hrecent, hentry⟩
    have hrecent' : s.time + 1 < c.time + 600 := hrecent
    refine ⟨⟨c, hlast, (Nat.lt_succ_self _).trans hrecent', hentry⟩, ?_⟩
    rwa [(Cached.entry_eq_some_iff.mp hentry).2]

theorem lastCached_store (s : State) (row : RankingRow) (command : SetCommand)
    (fetched pending : List RankingRow) (key : List UInt8) :
    (s.store row command fetched pending).lastCached key =
      if key = row.key then some ⟨row, s.time⟩ else s.lastCached key := by
  rw [State.lastCached, State.store, List.find?_cons]
  by_cases h : key = row.key
  · simp [h]
  · simp [h, Ne.symm h, State.lastCached]

theorem redis_store (s : State) {row : RankingRow} {command : SetCommand}
    (hcommand : row.setCommand = some command)
    (fetched pending : List RankingRow) (key : List UInt8) :
    (s.store row command fetched pending).redis key =
      if key = row.key then Cached.entry ⟨row, s.time⟩ else s.redis key := by
  rw [← RankingRow.key_of_setCommand hcommand, Cached.entry, hcommand]
  exact Function.update_apply _ _ _ _

theorem Sound.store (hs : Sound s) {fetched pending : List RankingRow}
    {row : RankingRow} (hphase : s.phase = .loading fetched (row :: pending))
    {command : SetCommand} (hcommand : row.setCommand = some command) :
    Sound (s.store row command fetched pending) := by
  obtain ⟨hresult, done, rfl, hdone⟩ := hs.loading _ _ hphase
  constructor
  · intro key entry
    rw [redis_store s hcommand, lastCached_store]
    by_cases hkey : key = row.key
    · rw [if_pos hkey, if_pos hkey]
      constructor
      · intro hentry
        exact ⟨_, rfl, Nat.lt_add_of_pos_right (by decide), hentry⟩
      · rintro ⟨_, ⟨⟩, -, hentry⟩
        exact hentry
    · rw [if_neg hkey, if_neg hkey]
      exact hs.redis key entry
  · intro c hc
    rcases List.mem_cons.mp hc with rfl | hc
    · exact ⟨Option.isSome_iff_exists.mpr ⟨command, hcommand⟩,
        (hresult.isInt row (by simp)).1⟩
    · exact hs.stored c hc
  · intro c hc
    rcases List.mem_cons.mp hc with rfl | hc
    · exact le_rfl
    · exact hs.past c hc
  · exact hs.sorted.cons hs.past
  · intro fetched' pending' h
    cases h
    refine ⟨hresult, done ++ [row], by simp, ?_⟩
    simpa [State.store] using hdone

theorem sound_initial : Sound State.initial where
  redis := by simp [State.initial, State.lastCached]
  stored := by simp [State.initial]
  past := by simp [State.initial]
  sorted := List.Pairwise.nil
  loading := by simp [State.initial]

theorem Sound.move (hs : Sound s) {phase : Phase}
    (hphase : ∀ fetched pending, phase = .loading fetched pending →
      Result fetched ∧ fetched = pending) :
    Sound { s with phase := phase } := by
  refine ⟨hs.redis, hs.stored, hs.past, hs.sorted, ?_⟩
  intro fetched pending h
  obtain ⟨hresult, rfl⟩ := hphase fetched pending h
  exact ⟨hresult, [], rfl, rfl⟩

theorem Sound.step (hs : Sound s) (h : s.step e = some s') : Sound s' := by
  cases e with
  | tick =>
      cases h
      exact hs.tick
  | query fetched =>
      obtain ⟨since, -, -, hresult, rfl⟩ := State.step_query h
      refine hs.move ?_
      rintro _ _ ⟨⟩
      exact ⟨hresult, rfl⟩
  | set =>
      obtain ⟨fetched, row, pending, command, hphase, hcommand, rfl⟩ :=
        State.step_set h
      exact hs.store hphase hcommand
  | finish =>
      obtain ⟨fetched, -, rfl⟩ := State.step_finish h
      exact hs.move (by simp)

/-! ## One step -/

/-- Ranks in the cache are the ranks of the rows that were cached last, while
these are recent. -/
theorem Sound.distinctRanks_iff (hs : Sound s) :
    DistinctRanks s ↔
      ∀ key key' c c', key ≠ key' →
        s.lastCached key = some c → c.Recent s →
          s.lastCached key' = some c' → c'.Recent s →
            c.row.rank ≠ c'.row.rank := by
  have hread {key : List UInt8} {c : Cached} {entry : Entry}
      (hlast : s.lastCached key = some c) (hentry : c.entry = some entry) :
      ∃ data, readRanking (some entry.value) = some data ∧
        data.mRrank = c.row.rank := by
    obtain ⟨command, hcommand, rfl⟩ := Option.map_eq_some_iff.mp hentry
    have hint := (hs.stored c (State.mem_log_of_lastCached hlast).1).2
    exact ⟨_, RankingRow.readRanking_of_setCommand hcommand,
      toInt_of_isInt hint⟩
  constructor
  · intro hdistinct key key' c c' hne hlast hrecent hlast' hrecent'
    obtain ⟨entry, hentry⟩ :=
      hs.exists_entry (State.mem_log_of_lastCached hlast).1
    obtain ⟨entry', hentry'⟩ :=
      hs.exists_entry (State.mem_log_of_lastCached hlast').1
    obtain ⟨data, hdata, hrank⟩ := hread hlast hentry
    obtain ⟨data', hdata', hrank'⟩ := hread hlast' hentry'
    rw [← hrank, ← hrank']
    exact hdistinct key key' entry entry' data data' hne
      ((hs.redis key entry).mpr ⟨c, hlast, hrecent, hentry⟩)
      ((hs.redis key' entry').mpr ⟨c', hlast', hrecent', hentry'⟩) hdata hdata'
  · intro hdistinct key key' entry entry' data data' hne hredis hredis' hdata
      hdata'
    obtain ⟨c, hlast, hrecent, hentry⟩ := (hs.redis key entry).mp hredis
    obtain ⟨c', hlast', hrecent', hentry'⟩ := (hs.redis key' entry').mp hredis'
    obtain ⟨_, hread₁, hrank⟩ := hread hlast hentry
    obtain ⟨_, hread₂, hrank'⟩ := hread hlast' hentry'
    obtain rfl := Option.some.inj (hdata.symm.trans hread₁)
    obtain rfl := Option.some.inj (hdata'.symm.trans hread₂)
    rw [hrank, hrank']
    exact hdistinct key key' c c' hne hlast hrecent hlast' hrecent'

theorem DistinctRanks.tick (h : DistinctRanks s) : DistinctRanks s.tick := by
  intro key key' entry entry' data data' hne hentry hentry'
  exact h key key' entry entry' data data' hne
    (Option.filter_eq_some_iff.mp hentry).1
    (Option.filter_eq_some_iff.mp hentry').1

/-- Ranks stay distinct when the rank that is cached is no other player's. -/
theorem Sound.distinctRanks_store_iff (hs : Sound s)
    (hdistinct : DistinctRanks s) {fetched pending : List RankingRow}
    {row : RankingRow} (hphase : s.phase = .loading fetched (row :: pending))
    {command : SetCommand} (hcommand : row.setCommand = some command) :
    DistinctRanks (s.store row command fetched pending) ↔
      ∀ key c, key ≠ row.key → s.lastCached key = some c → c.Recent s →
        c.row.rank ≠ row.rank := by
  have hnow : Cached.Recent ⟨row, s.time⟩ s :=
    Nat.lt_add_of_pos_right (by decide)
  rw [(hs.store hphase hcommand).distinctRanks_iff]
  rw [hs.distinctRanks_iff] at hdistinct
  simp only [lastCached_store]
  constructor
  · intro h key c hkey hlast hrecent
    exact h key row.key c ⟨row, s.time⟩ hkey (by rw [if_neg hkey]; exact hlast)
      hrecent (if_pos rfl) hnow
  · intro h key key' c c' hne hlast hrecent hlast' hrecent'
    by_cases hkey : key = row.key
    · have hkey' : key' ≠ row.key := fun h => hne (hkey.trans h.symm)
      rw [if_pos hkey] at hlast
      rw [if_neg hkey'] at hlast'
      cases hlast
      exact (h key' c' hkey' hlast' hrecent').symm
    · rw [if_neg hkey] at hlast
      by_cases hkey' : key' = row.key
      · rw [if_pos hkey'] at hlast'
        cases hlast'
        exact h key c hkey hlast hrecent
      · rw [if_neg hkey'] at hlast'
        exact hdistinct key key' c c' hne hlast hrecent hlast' hrecent'

theorem IsEntryOf.key_eq {row : RankingRow} (h : IsEntryOf row key entry) :
    row.key = key := by
  obtain ⟨command, hcommand, rfl, -⟩ := h
  exact (RankingRow.key_of_setCommand hcommand).symm

theorem IsEntryOf.rank_eq {row row' : RankingRow}
    (h : IsEntryOf row key entry) (h' : IsEntryOf row' key entry)
    (hint : IsInt row.rank) (hint' : IsInt row'.rank) :
    row.rank = row'.rank := by
  obtain ⟨command, hcommand, -, hvalue⟩ := h
  obtain ⟨command', hcommand', -, hvalue'⟩ := h'
  have hread := RankingRow.readRanking_of_setCommand hcommand
  have hread' := RankingRow.readRanking_of_setCommand hcommand'
  rw [hvalue, ← hvalue', hread'] at hread
  rw [← toInt_of_isInt hint, ← toInt_of_isInt hint']
  exact (congrArg Data_Ranking.mRrank (Option.some.inj hread)).symm

/-- What was cached last for the player of a row of the load was cached in this
load. -/
theorem mem_take_of_lastCached {n : ℕ} {last : Cached}
    (hc : c ∈ s.log.take n) (hlast : s.lastCached c.row.key = some last) :
    last ∈ s.log.take n := by
  have hsome :
      ((s.log.take n).find? fun c' => c'.row.key = c.row.key).isSome := by
    rw [List.find?_isSome]
    exact ⟨c, hc, by simp⟩
  obtain ⟨found, hfound⟩ := Option.isSome_iff_exists.mp hsome
  rw [State.lastCached, ← List.take_append_drop n s.log, List.find?_append,
    hfound] at hlast
  cases hlast
  exact List.mem_of_find?_eq_some hfound

/-- At the end of a load the newest rows of the log are those of the load. -/
theorem Sound.map_row_take (hs : Sound s) {fetched : List RankingRow}
    (hphase : s.phase = .loading fetched []) :
    (s.log.take fetched.length).map Cached.row = fetched.reverse := by
  obtain ⟨-, done, hdone, hrows⟩ := hs.loading _ _ hphase
  rw [List.append_nil] at hdone
  rwa [hdone]

theorem Sound.mem_fetched_iff (hs : Sound s) {fetched : List RankingRow}
    (hphase : s.phase = .loading fetched []) {row : RankingRow} :
    row ∈ fetched ↔ ∃ c ∈ s.log.take fetched.length, c.row = row := by
  rw [← List.mem_reverse, ← hs.map_row_take hphase, List.mem_map]

/-- With distinct players, what was cached last for the player of a row of the
load is this row. -/
theorem Sound.lastCached_eq (hs : Sound s) {fetched : List RankingRow}
    (hphase : s.phase = .loading fetched [])
    (hnodup : (fetched.map RankingRow.key).Nodup) {last : Cached}
    (hc : c ∈ s.log.take fetched.length)
    (hlast : s.lastCached c.row.key = some last) : last = c := by
  have hkeys :
      ((s.log.take fetched.length).map fun c' => c'.row.key).Nodup := by
    have hrows := congrArg (List.map RankingRow.key) (hs.map_row_take hphase)
    rw [List.map_map, List.map_reverse] at hrows
    rw [← List.nodup_reverse, ← hrows] at hnodup
    exact hnodup
  exact List.inj_on_of_nodup_map hkeys (mem_take_of_lastCached hc hlast) hc
    (State.mem_log_of_lastCached hlast).2

/-- The cache is exact at the end of a load just when the load meets the
guard. -/
theorem Sound.exact_iff (hs : Sound s) {fetched : List RankingRow}
    (hphase : s.phase = .loading fetched []) :
    Exact s fetched ↔
      (fetched.map RankingRow.key).Nodup ∧
        (∀ c ∈ s.log.take fetched.length, c.Recent s) ∧
        ∀ c ∈ s.log, c.Recent s → c.row.key ∈ fetched.map RankingRow.key := by
  have hresult := (hs.loading _ _ hphase).1
  constructor
  · intro hexact
    have hnodup : (fetched.map RankingRow.key).Nodup := by
      refine List.Nodup.map_on ?_ (List.Nodup.of_map _ hresult.ranks)
      intro row hrow row' hrow' hkey
      -- one entry cannot have two ranks
      obtain ⟨entry, hentry, hof⟩ := hexact.cached row hrow
      obtain ⟨entry', hentry', hof'⟩ := hexact.cached row' hrow'
      rw [hkey] at hentry hof
      obtain rfl := Option.some.inj (hentry.symm.trans hentry')
      exact List.inj_on_of_nodup_map hresult.ranks hrow hrow'
        (hof.rank_eq hof' (hresult.isInt row hrow).1
          (hresult.isInt row' hrow').1)
    refine ⟨hnodup, fun c hc => ?_, fun c hc hrecent => ?_⟩
    · obtain ⟨entry, hentry, -⟩ :=
        hexact.cached c.row ((hs.mem_fetched_iff hphase).mpr ⟨c, hc, rfl⟩)
      obtain ⟨last, hlast, hrecent, -⟩ := (hs.redis _ _).mp hentry
      exact hs.lastCached_eq hphase hnodup hc hlast ▸ hrecent
    · obtain ⟨-, entry, -, -, -, hentry⟩ := hs.live_of_recent hc hrecent
      obtain ⟨row, hrow, hof⟩ := hexact.live _ _ hentry
      exact List.mem_map.mpr ⟨row, hrow, hof.key_eq⟩
  · rintro ⟨hnodup, hrecent, hothers⟩
    have hlive (key : List UInt8) (entry : Entry)
        (hentry : s.redis key = some entry) :
        ∃ row ∈ fetched, IsEntryOf row key entry := by
      obtain ⟨c, hlast, hc, hof⟩ := (hs.redis _ _).mp hentry
      obtain ⟨hmem, rfl⟩ := State.mem_log_of_lastCached hlast
      obtain ⟨row, hrow, hkey⟩ := List.mem_map.mp (hothers c hmem hc)
      obtain ⟨c', hc', rfl⟩ := (hs.mem_fetched_iff hphase).mp hrow
      obtain rfl := hs.lastCached_eq hphase hnodup hc' (hkey ▸ hlast)
      exact ⟨c.row, hrow, (Cached.entry_eq_some_iff.mp hof).1⟩
    refine ⟨fun row hrow => ?_, hlive, fun socketId playerId hnone => ?_⟩
    · obtain ⟨c, hc, rfl⟩ := (hs.mem_fetched_iff hphase).mp hrow
      obtain ⟨last, entry, hlast, -, hof, hentry⟩ :=
        hs.live_of_recent (List.mem_of_mem_take hc) (hrecent c hc)
      obtain rfl := hs.lastCached_eq hphase hnodup hc hlast
      exact ⟨entry, hentry, (Cached.entry_eq_some_iff.mp hof).1⟩
    · have hempty : s.redis (cString (rankingKey playerId)) = none := by
        rw [Option.eq_none_iff_forall_ne_some]
        intro entry hentry
        obtain ⟨row, hrow, hof⟩ := hlive _ _ hentry
        exact hnone row hrow hof.key_eq
      rw [State.response, hempty]
      rfl

theorem Sound.noStaleRanks_step_iff (hs : Sound s) (hstale : NoStaleRanks s)
    (h : s.step e = some s') : NoStaleRanks s' ↔ Fresh s e := by
  cases e with
  | tick =>
      cases h
      refine iff_of_true ⟨?_, hstale.distinct.tick⟩ trivial
      intro fetched hphase
      simp only [State.tick] at hphase
      split at hphase <;> cases hphase
  | query rows =>
      obtain ⟨since, -, -, -, rfl⟩ := State.step_query h
      exact iff_of_true ⟨(by rintro _ ⟨⟩), hstale.distinct⟩ trivial
  | set =>
      obtain ⟨fetched, row, pending, command, hphase, hcommand, rfl⟩ :=
        State.step_set h
      have hiff := hs.distinctRanks_store_iff hstale.distinct hphase hcommand
      constructor
      · rintro ⟨-, hdistinct⟩ fetched' row' pending' hphase'
        cases hphase.symm.trans hphase'
        exact hiff.mp hdistinct
      · intro hfresh
        exact ⟨(by rintro _ ⟨⟩), hiff.mpr (hfresh _ _ _ hphase)⟩
  | finish =>
      obtain ⟨fetched, hphase, rfl⟩ := State.step_finish h
      have hiff := hs.exact_iff hphase
      constructor
      · rintro ⟨hexact, -⟩ fetched' hphase'
        cases hphase.symm.trans hphase'
        have hend : Exact s fetched := by
          obtain ⟨hcached, hlive, hothers⟩ := hexact fetched rfl
          exact ⟨hcached, hlive, hothers⟩
        exact hiff.mp hend
      · intro hfresh
        refine ⟨?_, hstale.distinct⟩
        rintro _ ⟨⟩
        obtain ⟨hcached, hlive, hothers⟩ := hiff.mpr (hfresh _ hphase)
        exact ⟨hcached, hlive, hothers⟩

/-! ## Runs -/

theorem noStaleRanks_initial : NoStaleRanks State.initial :=
  ⟨(by rintro _ ⟨⟩), (by rintro _ _ _ _ _ _ _ ⟨⟩)⟩

/-- The cache never holds stale ranks just when every load meets the guard. -/
theorem noStaleRanks_iff_fresh (es : List Event) :
    Throughout State.step NoStaleRanks State.initial es ↔
      Every State.step Fresh State.initial es :=
  throughout_iff_every (fun _ _ _ hs => hs.step)
    (fun _ _ _ hs => hs.noStaleRanks_step_iff) sound_initial
    noStaleRanks_initial es

/-- The first hundred players, 99 of whom keep their places. -/
def topRows (last : List UInt8) (score : ℤ) : List RankingRow :=
  (List.range 99).map (fun i =>
    ⟨i + 1, [65 + UInt8.ofNat (i / 10), 48 + UInt8.ofNat (i % 10)], 200 - i⟩) ++
    [⟨100, last, score⟩]

/-- A load with the rows. -/
def load (rows : List RankingRow) : List Event :=
  List.replicate 60 Event.tick ++ Event.query rows ::
    (rows.map fun _ => Event.set) ++ [Event.finish]

/-- Two cycles; in the second another player has taken the last place. -/
def overtaken : List Event :=
  load (topRows (ascii "P") 20) ++ load (topRows (ascii "Q") 30)

/-- The entry of the player who was overtaken outlives the load. -/
theorem not_noStaleRanks_of_overtaken :
    ¬ ∀ es, Throughout State.step NoStaleRanks State.initial es := by
  have hruns : ∃ s ∈ run State.step State.initial overtaken,
      s.phase = .loaded (topRows (ascii "Q") 30) ∧
        (s.redis (rankingKey (ascii "P"))).isSome := by
    decide +kernel
  obtain ⟨s, hrun, hphase, hentry⟩ := hruns
  obtain ⟨entry, hentry⟩ := Option.isSome_iff_exists.mp hentry
  intro hall
  have hexact := ((hall overtaken).last hrun).exact _ hphase
  obtain ⟨row, hrow, hof⟩ := hexact.live _ _ hentry
  have hkeys : ∀ row ∈ topRows (ascii "Q") 30,
      row.key ≠ rankingKey (ascii "P") := by
    decide +kernel
  exact hkeys row hrow hof.key_eq

end RankingServer.Business.RankingCache
