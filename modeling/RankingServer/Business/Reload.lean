import RankingServer.Business.DatabaseWorker

/-!
# Loading the scores and saving them again

`ScoreDataLoad` reads player ids through a buffer of 16 wide characters, one of
which is the terminator, while the column holds ids of up to 16 characters.  An
id of 16 characters is cached under its first 15, and the next save merges it as
the id of another player.
-/

namespace RankingServer.Business

variable {Date : Type*} {clock : Clock Date}

/-- The players of a table with their scores. -/
def ScoreTable.scores (table : ScoreTable Date) : Set (List UInt8 × ℤ) :=
  { pair | ∃ row ∈ table.rows, (row.player_id, row.score) = pair }

theorem mem_scores_iff {table : ScoreTable Date} {playerId : List UInt8}
    {score : ℤ} :
    (playerId, score) ∈ ScoreTable.scores table ↔
      (table.lookup playerId).map ScoreRow.score = some score := by
  constructor
  · rintro ⟨row, hrow, hpair⟩
    obtain ⟨rfl, rfl⟩ := Prod.mk.inj hpair
    rw [KeyedTable.lookup_of_mem hrow]
    rfl
  · intro h
    obtain ⟨row, hlookup, rfl⟩ := Option.map_eq_some_iff.mp h
    have hkey := KeyedTable.key_of_lookup_eq_some hlookup
    exact ⟨row, KeyedTable.mem_rows_of_lookup hlookup, by rw [hkey]⟩

theorem scores_eq_iff {table table' : ScoreTable Date} :
    ScoreTable.scores table' = ScoreTable.scores table ↔
      ∀ playerId, (table'.lookup playerId).map ScoreRow.score =
        (table.lookup playerId).map ScoreRow.score := by
  rw [Set.ext_iff]
  constructor
  · intro h playerId
    refine Option.ext fun score => ?_
    have hpair := h (playerId, score)
    rwa [mem_scores_iff, mem_scores_iff] at hpair
  · rintro h ⟨playerId, score⟩
    rw [mem_scores_iff, mem_scores_iff, h]

/-- No row that is fetched after the row agrees with it in the first 15
characters of the id. -/
def FetchedLast (fetched : List (ScoreRow Date)) (row : ScoreRow Date) : Prop :=
  fetched.reverse.find?
    (fun r => r.player_id.take 15 = row.player_id.take 15) = some row

/-- A row that is fetched last has the score of the player whose id consists of
its first 15 characters. -/
def Reloadable (fetched : List (ScoreRow Date)) : Prop :=
  ∀ row, FetchedLast fetched row →
    ∃ r ∈ fetched, r.player_id = row.player_id.take 15 ∧ r.score = row.score

theorem lastRow_eq {fetched : List (ScoreRow Date)}
    (hrows : ∀ row ∈ fetched, row.Valid) (playerId : List UInt8) :
    lastRow fetched (scoreKey playerId) =
      fetched.reverse.find? fun row => row.player_id.take 15 = playerId := by
  rw [lastRow]
  apply List.find?_congr
  intro row hrow
  rw [idString_of_isAscii (hrows row (List.mem_reverse.mp hrow)).ascii]
  exact decide_eq_decide.mpr scoreKey_injective.eq_iff

/-- Tables without ids of 16 characters are reloadable. -/
theorem reloadable_of_short {fetched : List (ScoreRow Date)}
    (h : ∀ row ∈ fetched, row.player_id.length ≤ 15) : Reloadable fetched := by
  intro row hrow
  have hmem := List.mem_reverse.mp (List.mem_of_find?_eq_some hrow)
  exact ⟨row, hmem, (List.take_of_length_le (h row hmem)).symm, rfl⟩

/-- What a load leaves in the empty cache. -/
theorem exists_scoreDataLoad (clock : Clock Date)
    {fetched : List (ScoreRow Date)} (hrows : ∀ row ∈ fetched, row.Valid) :
    ∃ store, scoreDataLoad clock fetched (fun _ => none) = some store ∧
      ScoreCache store ∧
      (∀ key, (store key).isSome ↔
        ∃ row ∈ fetched, scoreKey (idString row.player_id) = key) ∧
      ∀ playerId, cachedScore store playerId =
        (lastRow fetched (scoreKey playerId)).map (ScoreRow.cached clock) := by
  obtain ⟨store, hload, hstore⟩ := scoreDataLoad_eq clock hrows fun _ => none
  have hempty : ScoreCache fun _ => none := by rintro _ _ ⟨⟩
  refine ⟨store, hload, hempty.scoreDataLoad hrows hload, fun key => ?_,
    fun playerId => ?_⟩
  · have hfind : (lastRow fetched key).isSome ↔
        ∃ row ∈ fetched, scoreKey (idString row.player_id) = key := by
      simp [lastRow, List.find?_isSome]
    rw [← hfind]
    cases hlast : lastRow fetched key with
    | none => simp [(hstore key).2 hlast]
    | some row =>
        obtain ⟨text, htext, -⟩ := (hstore key).1 row hlast
        simp [htext]
  · cases hlast : lastRow fetched (scoreKey playerId) with
    | none =>
        rw [cachedScore, (hstore _).2 hlast]
        rfl
    | some row =>
        obtain ⟨text, htext, hentry⟩ := (hstore _).1 row hlast
        rw [cachedScore, htext, hentry.readScore]
        rfl

/-- A load into an empty cache and a save leave the players and their scores as
they were exactly when the table is reloadable, in particular when no id has 16
characters. -/
theorem scores_reload_iff (clock : Clock Date) (table : ScoreTable Date)
    (hrows : ∀ row ∈ table.rows, row.Valid) {fetched : List (ScoreRow Date)}
    (hfetched : fetched.Perm table.rows) :
    ∃ store, scoreDataLoad clock fetched (fun _ => none) = some store ∧
      ∀ replies, Scan store replies →
        ∃ table', scoreDataSave clock store replies table = some table' ∧
          (ScoreTable.scores table' = ScoreTable.scores table ↔
            Reloadable fetched) := by
  have hvalid : ∀ row ∈ fetched, row.Valid := fun row hrow =>
    hrows row (hfetched.mem_iff.mp hrow)
  obtain ⟨store, hload, hcache, -, hcached⟩ :=
    exists_scoreDataLoad clock hvalid
  refine ⟨store, hload, fun replies hscan => ?_⟩
  obtain ⟨table', hsave, hlookup⟩ :=
    scoreDataSave_eq clock hcache hscan table
  refine ⟨table', hsave, ?_⟩
  rw [scores_eq_iff]
  constructor
  · intro hscores row hrow
    have hid :
        lastRow fetched (scoreKey (row.player_id.take 15)) = some row := by
      rwa [lastRow_eq hvalid]
    have hsame := hscores (row.player_id.take 15)
    rw [hlookup, hcached, hid] at hsame
    obtain ⟨r, hr, hscore⟩ := Option.map_eq_some_iff.mp hsame.symm
    exact ⟨r, hfetched.mem_iff.mpr (KeyedTable.mem_rows_of_lookup hr),
      KeyedTable.key_of_lookup_eq_some hr, hscore⟩
  · intro hreloadable playerId
    rw [hlookup, hcached]
    cases hlast : lastRow fetched (scoreKey playerId) with
    | none => rfl
    | some row =>
        rw [lastRow_eq hvalid] at hlast
        have hprefix : row.player_id.take 15 = playerId := by
          simpa using List.find?_some hlast
        subst hprefix
        obtain ⟨r, hr, hid, hscore⟩ := hreloadable row hlast
        have hrow := KeyedTable.lookup_of_mem (hfetched.mem_iff.mp hr)
        rw [← hid, hrow]
        exact congrArg some hscore.symm

instance (row : ScoreRow Date) : Decidable row.Valid :=
  decidable_of_iff
    ((∀ b ∈ row.player_id, 0 < b ∧ b < 0x80) ∧ row.player_id ≠ [] ∧
      row.player_id.length ≤ PLAYER_ID_LENGTH ∧ IsInt row.score)
    ⟨fun h => ⟨h.1, h.2.1, h.2.2.1, h.2.2.2⟩,
      fun h => ⟨h.ascii, h.nonempty, h.fits, h.isInt⟩⟩

/-- Two players. -/
def twoPlayers : ScoreTable ℤ where
  rows := [⟨ascii "A", 100, 0⟩, ⟨ascii "B", 90, 0⟩]
  nodup := by decide

/-- A scan of what a load left may return everything in one batch. -/
theorem scan_loaded {fetched : List (ScoreRow Date)}
    (hrows : ∀ row ∈ fetched, row.Valid) {store : Store}
    (hload : scoreDataLoad clock fetched (fun _ => none) = some store) :
    Scan store
      [(0, fetched.map fun row => scoreKey (idString row.player_id))] := by
  obtain ⟨store', hload', -, hkeys, -⟩ := exists_scoreDataLoad clock hrows
  obtain rfl := Option.some.inj (hload.symm.trans hload')
  constructor
  · exact ⟨[], _, rfl, (by simp)⟩
  · simp
  · simp only [List.mem_singleton, forall_eq, List.mem_map]
    rintro key ⟨row, hrow, rfl⟩
    exact ⟨isScoreKey_scoreKey _, (hkeys _).mpr ⟨row, hrow, rfl⟩⟩
  · intro key _ hsome
    exact ⟨_, List.mem_singleton_self _,
      List.mem_map.mpr ((hkeys key).mp hsome)⟩

/-- Two players with short ids. -/
theorem scores_reload_twoPlayers :
    ∃ store table',
      scoreDataLoad utcClock twoPlayers.rows (fun _ => none) = some store ∧
        scoreDataSave utcClock store
            [(0, [ascii "table:Score:A", ascii "table:Score:B"])] twoPlayers =
          some table' ∧
        ScoreTable.scores table' = ScoreTable.scores twoPlayers := by
  have hrows : ∀ row ∈ twoPlayers.rows, row.Valid := by decide +kernel
  obtain ⟨store, hload, hall⟩ :=
    scores_reload_iff utcClock twoPlayers hrows (List.Perm.refl _)
  obtain ⟨table', hsave, hscores⟩ := hall _ (scan_loaded hrows hload)
  exact ⟨store, table', hload, hsave,
    hscores.mpr (reloadable_of_short (by decide))⟩

/-- A player whose id has 16 characters. -/
def longId : ScoreTable ℤ where
  rows := [⟨ascii "ABCDEFGHIJKLMNOP", 100, 0⟩]
  nodup := by decide

/-- The save adds a player that nobody knows. -/
theorem not_scores_reload_longId :
    ¬ ∀ (table : ScoreTable ℤ) (fetched : List (ScoreRow ℤ)),
      (∀ row ∈ table.rows, row.Valid) → fetched.Perm table.rows →
        ∀ store, scoreDataLoad utcClock fetched (fun _ => none) = some store →
          ∀ replies, Scan store replies →
            ∀ table', scoreDataSave utcClock store replies table = some table' →
              ScoreTable.scores table' = ScoreTable.scores table := by
  have hrows : ∀ row ∈ longId.rows, row.Valid := by decide +kernel
  obtain ⟨store, hload, -⟩ := exists_scoreDataLoad utcClock hrows
  intro hall
  have hscores := hall longId _ hrows (List.Perm.refl _) store hload _
    (scan_loaded hrows hload)
  obtain rfl := Option.some.inj hload
  have hphantom : (ascii "ABCDEFGHIJKLMNO", (100 : ℤ)) ∈
      ScoreTable.scores longId := by
    rw [← hscores _ rfl, mem_scores_iff]
    decide
  rw [mem_scores_iff] at hphantom
  revert hphantom
  decide

end RankingServer.Business
