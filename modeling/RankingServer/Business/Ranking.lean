import RankingServer.Business.DatabaseWorker
import RankingServer.Business.Hub
import RankingServer.Foundation.RowNumber

/-!
# The ranking and its cache

`UpdateRanking` numbers the players by their scores, `RankingDataLoad` copies
what it fetches of the numbered rows to the cache, and `Response_PlayerRanking`
reads one entry of it.  The table `Ranking` has no column `score`; the score of
a fetched row is taken to be that of the player in `Score`, as in the query with
which the schema joins the two.
-/

namespace RankingServer.Business

/-! ## The tables -/

/-- A row of `Ranking`. -/
structure RankedPlayer where
  rank : ℤ
  player_id : List UInt8
deriving DecidableEq, Repr

/-- `Ranking`, with its primary key. -/
abbrev RankingTable := KeyedTable fun row : RankedPlayer => row.rank

/-- `ROW_NUMBER()` over the rows in the given order. -/
def rowNumbers {Date : Type*} (ordered : List (ScoreRow Date)) :
    List RankedPlayer :=
  ordered.mapIdx fun i row => ⟨i + 1, row.player_id⟩

/-- A successful `UpdateRanking`: the rows of `Score` are numbered in descending
order of the scores, rows with equal scores in any order. -/
structure UpdateRanking {Date : Type*} (table : ScoreTable Date)
    (ranking : RankingTable) : Prop where
  numbered : ∃ ordered : List (ScoreRow Date), ordered.Perm table.rows ∧
    ordered.Pairwise (fun row row' => row'.score ≤ row.score) ∧
    ranking.rows.Perm (rowNumbers ordered)
  isInt : ∀ row ∈ ranking.rows, IsInt row.rank

/-- A row that `RankingDataLoad` fetches. -/
structure RankingRow where
  rank : ℤ
  player_id : List UInt8
  score : ℤ
deriving DecidableEq, Repr

/-- `Ranking` joined with `Score`. -/
def joinedRows {Date : Type*} (table : ScoreTable Date)
    (ranking : RankingTable) : List RankingRow :=
  ranking.rows.filterMap fun row =>
    (table.lookup row.player_id).map fun r =>
      ⟨row.rank, row.player_id, r.score⟩

/-- What `SELECT TOP 100` may return: without an `ORDER BY` it is up to the
database which rows these are, and in which order they come. -/
structure TopRows {Date : Type*} (table : ScoreTable Date)
    (ranking : RankingTable) (fetched : List RankingRow) : Prop where
  rows : ∃ rest, (fetched ++ rest).Perm (joinedRows table ranking)
  count : fetched.length = min 100 (joinedRows table ranking).length

/-! ## Loading the ranking -/

def rankingKey (playerId : List UInt8) : List UInt8 :=
  cacheKey (ascii "Ranking") playerId

namespace RankingRow

/-- The key under which the row is cached. -/
def key (row : RankingRow) : List UInt8 :=
  cString (rankingKey (idString row.player_id))

/-- The JSON object that is cached for the row. -/
def toJson (row : RankingRow) : Json.Members :=
  Data_Ranking.toJson row.rank (idString row.player_id) row.score

/-- The command of `RankingDataLoad` for the row; `dump` may throw. -/
def setCommand (row : RankingRow) : Option SetCommand :=
  (Json.dump row.toJson).map fun jsonString =>
    setCachedData (ascii "Ranking") (idString row.player_id) jsonString 600

end RankingRow

/-- `RankingDataLoad` on the rows it fetches. -/
def rankingDataLoad : List RankingRow → Store → Option Store
  | [], store => some store
  | row :: rows, store =>
      row.setCommand.bind fun command =>
        rankingDataLoad rows ((Command.set command).execute store)

/-- What `Response_PlayerRanking` makes of the answer to its `GET`, when that
can be read. -/
def readRanking (reply : Option (List UInt8)) : Option Data_Ranking :=
  (getCachedData reply).join.bind Data_Ranking.ofJson

/-- An object that was stored is found again. -/
theorem getCachedData_dump {members : Json.Members} {text : List UInt8}
    (htext : Json.dump members = some text) :
    getCachedData (some text) = some (some members) := by
  have hparse := Json.parse_dump htext
  have hquotes : text ≠ [34, 34] := by
    rintro rfl
    cases hparse
  simp only [getCachedData, cString_of_notMem (Json.zero_notMem_dump htext),
    if_neg hquotes, hparse, Option.map_some]

namespace RankingRow

variable {row : RankingRow} {command : SetCommand}

/-- The ids are read in a form that can be dumped. -/
theorem setCommand_isSome (row : RankingRow) : row.setCommand.isSome := by
  rw [setCommand, Option.isSome_map, toJson,
    Data_Ranking.dump_toJson_isSome_iff]
  exact wellFormed_idString row.player_id

theorem setCommand_eq_some_iff :
    row.setCommand = some command ↔
      ∃ text, Json.dump row.toJson = some text ∧
        command = ⟨row.key, text, 600⟩ := by
  rw [setCommand, Option.map_eq_some_iff]
  constructor
  · rintro ⟨text, htext, rfl⟩
    refine ⟨text, htext, ?_⟩
    rw [setCachedData, cString_of_notMem (Json.zero_notMem_dump htext)]
    rfl
  · rintro ⟨text, htext, rfl⟩
    refine ⟨text, htext, ?_⟩
    rw [setCachedData, cString_of_notMem (Json.zero_notMem_dump htext)]
    rfl

theorem key_of_setCommand (h : row.setCommand = some command) :
    command.key = row.key := by
  obtain ⟨text, -, rfl⟩ := setCommand_eq_some_iff.mp h
  rfl

/-- The entry of a row can be read. -/
theorem getCachedData_of_setCommand (h : row.setCommand = some command) :
    getCachedData (some command.value) = some (some row.toJson) := by
  obtain ⟨text, htext, rfl⟩ := setCommand_eq_some_iff.mp h
  exact getCachedData_dump htext

theorem readRanking_of_setCommand (h : row.setCommand = some command) :
    readRanking (some command.value) =
      some ⟨toInt row.rank, idString row.player_id, toInt row.score⟩ := by
  rw [readRanking, getCachedData_of_setCommand h]
  exact Data_Ranking.ofJson_toJson _ _ _

end RankingRow

/-- The response for an entry that can be read. -/
theorem Hub.response_PlayerRanking_of_read {reply : Option (List UInt8)}
    {data : Data_Ranking} (h : readRanking reply = some data) (socketId : ℕ)
    (playerId : List UInt8) :
    response_PlayerRanking reply socketId playerId =
      .responded [] socketId Protocol.MessageContent_RESPONSE_PLAYER_RANKING
        (Protocol.responsePlayerRanking playerId data.mScore data.mRrank true
          true) := by
  rw [readRanking, Option.bind_eq_some_iff] at h
  obtain ⟨playerRanking, hcached, hdata⟩ := h
  rw [Option.join_eq_some_iff] at hcached
  simp only [response_PlayerRanking, hcached, hdata]

/-- A load amounts to the commands for the rows, in the order of the rows. -/
theorem rankingDataLoad_eq_some_iff {rows : List RankingRow}
    {store store' : Store} :
    rankingDataLoad rows store = some store' ↔
      ∃ commands,
        List.Forall₂ (fun row command => row.setCommand = some command) rows
          commands ∧
        setAll commands store = store' := by
  induction rows generalizing store with
  | nil =>
      simp [rankingDataLoad, setAll]
  | cons row rows ih =>
      rw [rankingDataLoad, Option.bind_eq_some_iff]
      constructor
      · rintro ⟨command, hcommand, hload⟩
        obtain ⟨commands, hcommands, rfl⟩ := ih.mp hload
        exact ⟨command :: commands, .cons hcommand hcommands, rfl⟩
      · rintro ⟨_, hcommands, rfl⟩
        cases hcommands with
        | cons hcommand hrest =>
            exact ⟨_, hcommand, ih.mpr ⟨_, hrest, rfl⟩⟩

/-- A load goes through. -/
theorem exists_rankingDataLoad (rows : List RankingRow) (store : Store) :
    ∃ store', rankingDataLoad rows store = some store' := by
  induction rows generalizing store with
  | nil => exact ⟨store, rfl⟩
  | cons row rows ih =>
      obtain ⟨command, hcommand⟩ :=
        Option.isSome_iff_exists.mp row.setCommand_isSome
      obtain ⟨store', hload⟩ := ih ((Command.set command).execute store)
      refine ⟨store', ?_⟩
      rw [rankingDataLoad, hcommand]
      exact hload

/-- After a load the entry of a row is its own when no other row has its
key. -/
theorem entry_of_rankingDataLoad {rows : List RankingRow}
    {store store' : Store} (hload : rankingDataLoad rows store = some store')
    {row : RankingRow} (hrow : row ∈ rows)
    (hunique : ∀ row' ∈ rows, row'.key = row.key → row' = row) :
    ∃ command, row.setCommand = some command ∧
      store' row.key = some command.value := by
  obtain ⟨commands, hcommands, rfl⟩ := rankingDataLoad_eq_some_iff.mp hload
  have hsource (command : SetCommand) (hmem : command ∈ commands) :
      ∃ row' ∈ rows, row'.setCommand = some command := by
    obtain ⟨i, hi, rfl⟩ := List.mem_iff_getElem.mp hmem
    have hlength := hcommands.length_eq
    exact ⟨rows[i], List.getElem_mem _, hcommands.get (by omega) hi⟩
  have htarget : ∃ command ∈ commands, row.setCommand = some command := by
    obtain ⟨i, hi, rfl⟩ := List.mem_iff_getElem.mp hrow
    have hlength := hcommands.length_eq
    exact ⟨commands[i], List.getElem_mem _, hcommands.get hi (by omega)⟩
  obtain ⟨command, hmem, hcommand⟩ := htarget
  have hfound : (commands.reverse.find? fun c => c.key = row.key).isSome := by
    rw [List.find?_isSome]
    exact ⟨command, List.mem_reverse.mpr hmem,
      by simpa using RankingRow.key_of_setCommand hcommand⟩
  obtain ⟨last, hlast⟩ := Option.isSome_iff_exists.mp hfound
  obtain ⟨row', hrow', hset⟩ :=
    hsource last (List.mem_reverse.mp (List.mem_of_find?_eq_some hlast))
  have hkey : row'.key = row.key := by
    rw [← RankingRow.key_of_setCommand hset]
    simpa using List.find?_some hlast
  obtain rfl := hunique row' hrow' hkey
  refine ⟨last, hset, ?_⟩
  rw [setAll_apply, hlast]
  rfl

/-! ## Keys -/

theorem rankingKey_eq (playerId : List UInt8) :
    rankingKey playerId = ascii "table:Ranking:" ++ playerId :=
  rfl

theorem cString_append {front : List UInt8} (h : 0 ∉ front)
    (rest : List UInt8) : cString (front ++ rest) = front ++ cString rest := by
  rw [cString, List.takeWhile_append_of_pos]
  · rfl
  · intro b hb
    simpa using ne_of_mem_of_not_mem hb h

theorem cString_rankingKey (playerId : List UInt8) :
    cString (rankingKey playerId) =
      ascii "table:Ranking:" ++ cString playerId :=
  cString_append (by decide) playerId

theorem cString_scoreKey (playerId : List UInt8) :
    cString (scoreKey playerId) = scoreKey (cString playerId) := by
  rw [scoreKey_eq, scoreKey_eq]
  exact cString_append (by decide) playerId

/-- The two caches share no keys. -/
theorem scoreKey_ne_rankingKey (playerId playerId' : List UInt8) :
    scoreKey playerId ≠ cString (rankingKey playerId') := by
  rw [scoreKey_eq, cString_rankingKey]
  intro h
  have hletter : (83 : UInt8) = 82 :=
    Option.some.inj (congrArg (fun key => key[6]?) h)
  revert hletter
  decide

end RankingServer.Business
