import RankingServer.Business.Contents

/-!
# Starting up with a cache that is not empty

Redis outlives the server.  When the server starts, `DataLoadInSQL` writes every
row of `Score` to the cache, over what an earlier process has left there, and
then the ranking.  `ScoreDataSave` runs for the first time an interval later.
-/

namespace RankingServer.Business

/-- `DataLoadInSQL`, with the rows that the two loads fetch. -/
def dataLoadInSQL {Date : Type*} (clock : Clock Date)
    (rows : List (ScoreRow Date)) (rankings : List RankingRow)
    (store : Store) : Option Store :=
  (scoreDataLoad clock rows store).bind (rankingDataLoad rankings)

/-- Every player with an entry has an entry afterwards that is not older. -/
def KeepsLatest (store store' : Store) : Prop :=
  ∀ playerId data, cachedScore store playerId = some data →
    ∃ data', cachedScore store' playerId = some data' ∧
      data.mLastUpdate ≤ data'.mLastUpdate

/-- Loading the ranking leaves the scores alone. -/
theorem cachedScore_rankingDataLoad {rows : List RankingRow}
    {store store' : Store} (hload : rankingDataLoad rows store = some store')
    (playerId : List UInt8) :
    cachedScore store' playerId = cachedScore store playerId := by
  induction rows generalizing store with
  | nil => rw [Option.some.inj hload]
  | cons row rows ih =>
      rw [rankingDataLoad, Option.bind_eq_some_iff] at hload
      obtain ⟨command, hcommand, hload⟩ := hload
      have hkey := RankingRow.key_of_setCommand hcommand
      rw [ih hload, cachedScore, Command.execute, hkey, RankingRow.key,
        Function.update_of_ne (scoreKey_ne_rankingKey _ _)]
      rfl

section

variable {Date : Type*}

/-- After the start a player whose row was fetched has the entry of the row, the
others have the entries that they had. -/
theorem cachedScore_dataLoadInSQL (clock : Clock Date)
    (rows : List (ScoreRow Date)) (rankings : List RankingRow)
    (store : Store) :
    ∃ store', dataLoadInSQL clock rows rankings store = some store' ∧
      ∀ playerId, cachedScore store' playerId =
        ((lastRow rows (scoreKey playerId)).map fun row =>
          ⟨idString row.player_id, toInt row.score,
            clock.utcTime row.last_update⟩).or
          (cachedScore store playerId) := by
  obtain ⟨loaded, hload, hloaded⟩ := scoreDataLoad_lookup clock rows store
  obtain ⟨store', hranking⟩ := exists_rankingDataLoad rankings loaded
  refine ⟨store', ?_, fun playerId => ?_⟩
  · rw [dataLoadInSQL, hload, Option.bind_some, hranking]
  · rw [cachedScore_rankingDataLoad hranking, cachedScore]
    cases hlast : lastRow rows (scoreKey playerId) with
    | none =>
        rw [(hloaded _).2 hlast, Option.map_none, Option.none_or]
        rfl
    | some row =>
        obtain ⟨text, htext⟩ := row.exists_text clock
        rw [(hloaded _).1 row hlast, htext, readScore_dump htext,
          Option.map_some, Option.some_or]
        rfl

/-- A start keeps the latest entries just when no row is older than the entry
that it replaces. -/
theorem keepsLatest_iff (clock : Clock Date) (rows : List (ScoreRow Date))
    (rankings : List RankingRow) (store : Store) :
    ∃ store', dataLoadInSQL clock rows rankings store = some store' ∧
      (KeepsLatest store store' ↔
        ∀ playerId data row, cachedScore store playerId = some data →
          lastRow rows (scoreKey playerId) = some row →
            data.mLastUpdate ≤ clock.utcTime row.last_update) := by
  obtain ⟨store', hload, hcached⟩ :=
    cachedScore_dataLoadInSQL clock rows rankings store
  refine ⟨store', hload, ?_⟩
  constructor
  · intro hkeeps playerId data row hdata hlast
    obtain ⟨data', hdata', hle⟩ := hkeeps playerId data hdata
    rw [hcached, hlast, Option.map_some, Option.some_or] at hdata'
    obtain rfl := Option.some.inj hdata'
    exact hle
  · intro hrows playerId data hdata
    rw [hcached]
    cases hlast : lastRow rows (scoreKey playerId) with
    | none => exact ⟨data, hdata, le_rfl⟩
    | some row => exact ⟨_, rfl, hrows playerId data row hdata hlast⟩

end

/-- The row of the player, from before. -/
def olderRow : ScoreRow ℤ := ⟨ascii "A", 100, 0⟩

/-- The start replaces an acknowledged score by the older row. -/
theorem not_keepsLatest_olderRow :
    ¬ ∀ (rows : List (ScoreRow ℤ)) (rankings : List RankingRow)
      (store : Store), Written store →
        ∃ store', dataLoadInSQL utcClock rows rankings store = some store' ∧
          KeepsLatest store store' := by
  intro hall
  have hutf8 : Json.wellFormed (ascii "A") = true := by decide
  obtain ⟨text, htext⟩ :=
    Data_Score.exists_dump_toJson hutf8 200 (Hub.koreaTime 0)
  have hwritten : Written (setAll _ _) :=
    .handled .empty (Hub.handle_saveScore htext none 1)
  have hkey : cString (ascii "A") = ascii "A" := by decide
  rw [setAll_setCachedData htext, hkey] at hwritten
  obtain ⟨store', hload, hkeeps⟩ := hall [olderRow] [] _ hwritten
  have hbefore : cachedScore (Function.update (fun _ => none)
      (scoreKey (ascii "A")) (some text)) (ascii "A") =
        some ⟨ascii "A", toInt 200, Hub.koreaTime 0⟩ := by
    rw [cachedScore, Function.update_self, readScore_dump htext]
    rfl
  obtain ⟨data, hafter, hle⟩ := hkeeps _ _ hbefore
  obtain ⟨store'', hload', hcached⟩ :=
    cachedScore_dataLoadInSQL utcClock [olderRow] [] _
  obtain rfl := Option.some.inj (hload.symm.trans hload')
  have hlast : lastRow [olderRow] (scoreKey (ascii "A")) = some olderRow := by
    decide
  rw [hcached, hlast] at hafter
  obtain rfl := Option.some.inj hafter
  revert hle
  decide

end RankingServer.Business
