import RankingServer.Business.Ranking
import RankingServer.Business.Reload
import RankingServer.Protocol.RoundTrip

/-!
# A cycle of the `Work` loop

The save merges the cached scores into the table, the update numbers the rows of
the table, and the load caches the top rows.  Nothing else happens in between
here.  What a player is then told is the score that the save wrote, and a rank
that the scores of all players allow.
-/

namespace RankingServer.Business

open Flatbuffers Protocol

variable {Date : Type*} {clock : Clock Date}

/-- The ids that both columns and both buffers can hold. -/
def IsShortId (playerId : List UInt8) : Prop :=
  IsAscii playerId ∧ playerId.length ≤ 15

instance : DecidablePred IsShortId := fun playerId =>
  inferInstanceAs (Decidable
    ((∀ b ∈ playerId, 0 < b ∧ b < 0x80) ∧ playerId.length ≤ 15))

/-- The client gets a message in which it reads these fields. -/
structure Told (outcome : Outcome) (key : ℕ) (playerId : List UInt8)
    (score ranking : ℤ) (inRanking : Bool) : Prop where
  body : ∃ body data,
    outcome =
        .responded [] key MessageContent_RESPONSE_PLAYER_RANKING body ∧
      getRoot body = .ok data ∧
      RESPONSE_PLAYER_RANKING.player_id body data = .ok playerId ∧
      RESPONSE_PLAYER_RANKING.score body data = .ok score ∧
      RESPONSE_PLAYER_RANKING.ranking body data = .ok ranking ∧
      RESPONSE_PLAYER_RANKING.in_ranking body data =
        .ok (boolField inRanking) ∧
      RESPONSE_PLAYER_RANKING.feedback body data = .ok 1

theorem told_of_responded {outcome : Outcome} {key : ℕ}
    {playerId : List UInt8} (hlen : playerId.length < 2 ^ 30)
    {score ranking : ℤ} (hscore : IsInt score) (hranking : IsInt ranking)
    {inRanking : Bool}
    (houtcome : outcome = .responded [] key
      MessageContent_RESPONSE_PLAYER_RANKING
      (responsePlayerRanking playerId score ranking inRanking true)) :
    Told outcome key playerId score ranking inRanking := by
  obtain ⟨data, hroot, hfields⟩ :=
    responsePlayerRanking_reads hlen hscore hranking inRanking true []
  rw [List.append_nil] at hroot hfields
  exact ⟨_, data, houtcome, hroot, hfields⟩

/-- After a load of the fetched rows, the player of the row is told its score in
the table and a rank among the scores of the table that nobody else is told. -/
structure Published (table : ScoreTable Date) (store : Store)
    (fetched : List RankingRow) (row : RankingRow) : Prop where
  response : ∀ socketId,
    Told
      (Hub.response_PlayerRanking (store (cString (rankingKey row.player_id)))
        socketId row.player_id)
      socketId row.player_id row.score row.rank true
  score : (table.lookup row.player_id).map ScoreRow.score = some row.score
  distinct : ∀ row' ∈ fetched, row'.player_id ≠ row.player_id →
    row'.rank ≠ row.rank
  above : (table.rows.countP fun r => row.score < r.score : ℤ) < row.rank
  atLeast : row.rank ≤ (table.rows.countP fun r => row.score ≤ r.score : ℤ)

/-! ## The fetched rows -/

/-- A fetched row has the number and the score of a row of the table. -/
theorem exists_numbered {table : ScoreTable Date} {ranking : RankingTable}
    (hupdate : UpdateRanking table ranking) :
    ∃ ordered : List (ScoreRow Date), ordered.Perm table.rows ∧
      ordered.Pairwise (fun row row' => row'.score ≤ row.score) ∧
      ∀ row ∈ joinedRows table ranking, IsInt row.rank ∧
        ∃ (i : ℕ) (r : ScoreRow Date), ordered[i]? = some r ∧
          row = ⟨i + 1, r.player_id, r.score⟩ := by
  obtain ⟨ordered, hperm, hsorted, hnumbers⟩ := hupdate.numbered
  refine ⟨ordered, hperm, hsorted, fun row hrow => ?_⟩
  obtain ⟨ranked, hranked, hjoin⟩ := List.mem_filterMap.mp hrow
  obtain ⟨r, hlookup, rfl⟩ := Option.map_eq_some_iff.mp hjoin
  refine ⟨hupdate.isInt ranked hranked, ?_⟩
  obtain ⟨i, hi, hget⟩ :=
    List.mem_mapIdx.mp (hnumbers.mem_iff.mp hranked)
  have hmem : ordered[i] ∈ table.rows :=
    hperm.mem_iff.mp (List.getElem_mem hi)
  obtain rfl := hget.symm
  have hself := KeyedTable.lookup_of_mem hmem
  obtain rfl := Option.some.inj (hself.symm.trans hlookup)
  exact ⟨i, ordered[i], List.getElem?_eq_getElem hi, rfl⟩

/-- Rows of one player have one number. -/
theorem getElem?_unique {table : ScoreTable Date}
    {ordered : List (ScoreRow Date)} (hperm : ordered.Perm table.rows)
    {i j : ℕ} {r r' : ScoreRow Date} (hi : ordered[i]? = some r)
    (hj : ordered[j]? = some r') (hid : r.player_id = r'.player_id) :
    i = j := by
  have hnodup : (ordered.map ScoreRow.player_id).Nodup :=
    (hperm.map ScoreRow.player_id).nodup_iff.mpr table.nodup
  have hlt : i < (ordered.map ScoreRow.player_id).length := by
    rw [List.length_map]
    exact (List.getElem?_eq_some_iff.mp hi).1
  refine (List.getElem?_inj hlt hnodup).mp ?_
  rw [List.getElem?_map, List.getElem?_map, hi, hj]
  exact congrArg some hid

theorem key_of_isShortId {row : RankingRow} (h : IsShortId row.player_id) :
    idString row.player_id = row.player_id ∧
      row.key = rankingKey row.player_id := by
  have hid : idString row.player_id = row.player_id := by
    rw [idString_of_isAscii h.1, List.take_of_length_le h.2]
  have hnul : 0 ∉ row.player_id := fun hzero =>
    UInt8.lt_irrefl 0 (h.1 0 hzero).1
  refine ⟨hid, ?_⟩
  rw [RankingRow.key, hid, cString_rankingKey, cString_of_notMem hnul]
  rfl

/-- What the cache says about a row whose key no other row has. -/
theorem response_of_load {fetched : List RankingRow} {store store' : Store}
    (hload : rankingDataLoad fetched store = some store')
    (hshort : ∀ row ∈ fetched, IsShortId row.player_id)
    {row : RankingRow} (hrow : row ∈ fetched)
    (hunique : ∀ row' ∈ fetched, row'.player_id = row.player_id → row' = row)
    (hrank : IsInt row.rank) (hscore : IsInt row.score) (socketId : ℕ) :
    Hub.response_PlayerRanking
        (store' (cString (rankingKey row.player_id))) socketId
        row.player_id =
      .responded [] socketId MessageContent_RESPONSE_PLAYER_RANKING
        (responsePlayerRanking row.player_id row.score row.rank true true) := by
  have hself := key_of_isShortId (hshort row hrow)
  obtain ⟨command, hcommand, hentry⟩ :=
    entry_of_rankingDataLoad hload hrow fun row' hrow' hkey => by
      rw [(key_of_isShortId (hshort row' hrow')).2, hself.2,
        rankingKey_eq, rankingKey_eq] at hkey
      exact hunique row' hrow' (List.append_cancel_left hkey)
  have hread := RankingRow.readRanking_of_setCommand hcommand
  rw [toInt_of_isInt hrank, toInt_of_isInt hscore] at hread
  rw [RankingRow.key, hself.1] at hentry
  rw [hentry]
  exact Hub.response_PlayerRanking_of_read hread socketId row.player_id

/-- The load publishes the fetched rows of an updated ranking. -/
theorem published_of_load {table : ScoreTable Date} {ranking : RankingTable}
    {fetched : List RankingRow} (store : Store)
    (hrows : ∀ r ∈ table.rows, IsShortId r.player_id ∧ IsInt r.score)
    (hupdate : UpdateRanking table ranking)
    (hfetched : TopRows table ranking fetched) :
    ∃ store', rankingDataLoad fetched store = some store' ∧
      ∀ row ∈ fetched, Published table store' fetched row := by
  obtain ⟨ordered, hperm, hsorted, hjoined⟩ := exists_numbered hupdate
  obtain ⟨rest, hrest⟩ := hfetched.rows
  have hnumbered (row : RankingRow) (hrow : row ∈ fetched) :=
    hjoined row (hrest.mem_iff.mp (List.mem_append_left rest hrow))
  have htable {i : ℕ} {r : ScoreRow Date} (hget : ordered[i]? = some r) :
      r ∈ table.rows := hperm.mem_iff.mp (List.mem_of_getElem? hget)
  have hshort (row : RankingRow) (hrow : row ∈ fetched) :
      IsShortId row.player_id := by
    obtain ⟨-, i, r, hget, rfl⟩ := hnumbered row hrow
    exact (hrows r (htable hget)).1
  obtain ⟨store', hload⟩ := exists_rankingDataLoad fetched store
  refine ⟨store', hload, fun row hrow => ?_⟩
  obtain ⟨hrank, i, r, hget, hself⟩ := hnumbered row hrow
  have hunique (row' : RankingRow) (hrow' : row' ∈ fetched)
      (hid : row'.player_id = row.player_id) : row' = row := by
    obtain ⟨-, j, r', hget', rfl⟩ := hnumbered row' hrow'
    subst hself
    obtain rfl := getElem?_unique hperm hget' hget hid
    obtain rfl := Option.some.inj (hget'.symm.trans hget)
    rfl
  have hscore : IsInt row.score := by
    rw [hself]
    exact (hrows r (htable hget)).2
  have hbounds := RowNumber.bounds hperm hsorted hget
  have hlen : row.player_id.length < 2 ^ 30 :=
    (hshort row hrow).2.trans_lt (by decide)
  constructor
  · exact fun socketId => told_of_responded hlen hscore hrank
      (response_of_load hload hshort hrow hunique hrank hscore socketId)
  · rw [hself, KeyedTable.lookup_of_mem (htable hget)]
    rfl
  · intro row' hrow' hother hsame
    obtain ⟨-, j, r', hget', rfl⟩ := hnumbered row' hrow'
    subst hself
    obtain rfl : j = i := by simpa using hsame
    obtain rfl := Option.some.inj (hget'.symm.trans hget)
    exact hother rfl
  · rw [hself]
    change (_ : ℤ) < (i : ℤ) + 1
    exact_mod_cast hbounds.1
  · rw [hself]
    change (i : ℤ) + 1 ≤ _
    exact_mod_cast hbounds.2

/-! ## The cycle -/

/-- A save of short ids leaves short ids. -/
theorem shortId_of_save {store : Store} {table saved : ScoreTable Date}
    (hcache : ScoreCache store)
    (hids : ∀ data, Caches store data → IsShortId data.mPlayerId)
    (htable : ∀ r ∈ table.rows, IsShortId r.player_id ∧ IsInt r.score)
    (hcached : ∀ data, Caches store data →
      saved.lookup data.mPlayerId = some (.ofData clock data))
    (hothers : ∀ playerId, store (scoreKey playerId) = none →
      saved.lookup playerId = table.lookup playerId) :
    ∀ r ∈ saved.rows, IsShortId r.player_id ∧ IsInt r.score := by
  intro r hr
  have hself := KeyedTable.lookup_of_mem hr
  cases hstore : store (scoreKey r.player_id) with
  | none =>
      rw [hothers _ hstore] at hself
      exact htable r (KeyedTable.mem_rows_of_lookup hself)
  | some text =>
      obtain ⟨data, hentry⟩ := hcache _ _ hstore (isScoreKey_scoreKey _)
      have hid := scoreKey_injective hentry.key
      have hdata : Caches store data := ⟨text, hid ▸ hstore, hid ▸ hentry⟩
      rw [hid, hcached data hdata] at hself
      refine ⟨hid ▸ hids data hdata, ?_⟩
      rw [← Option.some.inj hself]
      exact hentry.isInt

/-- A cycle of the `Work` loop publishes the merged scores and ranks that go
with them, whichever batches the scan returns, in whatever order rows with equal
scores are numbered, and whichever of the rows are fetched. -/
theorem published_of_cycle (clock : Clock Date) {store : Store}
    (hcache : ScoreCache store)
    (hids : ∀ data, Caches store data → IsShortId data.mPlayerId)
    {table : ScoreTable Date}
    (htable : ∀ r ∈ table.rows, IsShortId r.player_id ∧ IsInt r.score)
    {replies : List (ℕ × List (List UInt8))} (hscan : Scan store replies) :
    ∃ saved, scoreDataSave clock store replies table = some saved ∧
      (∀ data, Caches store data →
        (saved.lookup data.mPlayerId).map ScoreRow.score = some data.mScore) ∧
      (∀ playerId, store (scoreKey playerId) = none →
        saved.lookup playerId = table.lookup playerId) ∧
      ∀ ranking fetched, UpdateRanking saved ranking →
        TopRows saved ranking fetched →
          ∃ store', rankingDataLoad fetched store = some store' ∧
            ∀ row ∈ fetched, Published saved store' fetched row := by
  obtain ⟨saved, hsave, hcached, hothers⟩ :=
    scoreDataSave_entries clock hcache hscan table
  have hrows := shortId_of_save hcache hids htable hcached hothers
  refine ⟨saved, hsave, ?_, hothers, fun ranking fetched hupdate hfetched =>
    published_of_load store hrows hupdate hfetched⟩
  intro data hdata
  rw [hcached data hdata]
  rfl

/-- A better score of the second player, in the cache. -/
def cachedRows : List (ScoreRow ℤ) := [⟨ascii "B", 120, 0⟩]

/-- The rows that are fetched after the players have changed places. -/
def swappedRows : List RankingRow :=
  [⟨1, ascii "B", 120⟩, ⟨2, ascii "A", 100⟩]

/-- The second of two players overtakes the first. -/
theorem published_swappedRows :
    ∃ store saved store',
      scoreDataLoad utcClock cachedRows (fun _ => none) = some store ∧
        scoreDataSave utcClock store [(0, [ascii "table:Score:B"])] twoPlayers =
          some saved ∧
        rankingDataLoad swappedRows store = some store' ∧
        ∀ row ∈ swappedRows, Published saved store' swappedRows row := by
  have hvalid : ∀ row ∈ cachedRows, row.Valid := by decide +kernel
  obtain ⟨store, hload, hcache, -, hcached⟩ :=
    exists_scoreDataLoad utcClock hvalid
  have hids (data : Data_Score) (hdata : Caches store data) :
      IsShortId data.mPlayerId := by
    have hread := hdata.cachedScore
    rw [hcached] at hread
    obtain ⟨row, hrow, rfl⟩ := Option.map_eq_some_iff.mp hread
    have hmem := List.mem_reverse.mp (List.mem_of_find?_eq_some hrow)
    obtain rfl := List.mem_singleton.mp hmem
    decide +kernel
  have htable : ∀ r ∈ twoPlayers.rows,
      IsShortId r.player_id ∧ IsInt r.score := by decide +kernel
  obtain ⟨saved, hsave, -, -, hall⟩ := published_of_cycle utcClock hcache hids
    htable (scan_loaded hvalid hload)
  have hrows : saved.rows = [⟨ascii "A", 100, 0⟩, ⟨ascii "B", 120, 0⟩] := by
    have hevaluated : (scoreDataLoad utcClock cachedRows fun _ => none).bind
        (fun store => (scoreDataSave utcClock store
          [(0, [ascii "table:Score:B"])] twoPlayers).map KeyedTable.rows) =
          some [⟨ascii "A", 100, 0⟩, ⟨ascii "B", 120, 0⟩] := by
      decide +kernel
    rw [hload, Option.bind_some] at hevaluated
    have hmap := congrArg (Option.map KeyedTable.rows) hsave
    exact Option.some.inj (hmap.symm.trans hevaluated)
  let ranking : RankingTable := ⟨[⟨1, ascii "B"⟩, ⟨2, ascii "A"⟩], by decide⟩
  have hjoin : joinedRows saved ranking = swappedRows := by
    unfold joinedRows KeyedTable.lookup
    rw [hrows]
    decide
  have hupdate : UpdateRanking saved ranking := by
    refine ⟨⟨[⟨ascii "B", 120, 0⟩, ⟨ascii "A", 100, 0⟩], ?_, by decide,
      List.Perm.refl _⟩, by decide⟩
    rw [hrows]
    decide
  have htop : TopRows saved ranking swappedRows := by
    constructor
    · exact ⟨[], by rw [hjoin, List.append_nil]⟩
    · rw [hjoin]
      rfl
  obtain ⟨store', hpublish, hpublished⟩ := hall ranking swappedRows hupdate htop
  exact ⟨store, saved, store', hload, hsave, hpublish, hpublished⟩

end RankingServer.Business
