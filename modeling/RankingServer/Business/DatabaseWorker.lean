import RankingServer.Business.Cache
import RankingServer.Foundation.KeyedTable

/-!
# Loading and saving the scores

`ScoreDataLoad` copies the rows of the SQL table `Score` into the cache, and
`ScoreDataSave` scans the cache and merges each entry back into the table.  The
statements and commands succeed here.  Entries do not expire while one of the
two functions runs alone; `RankingServer.Business.WorkLoop` lets them.

How SQL dates are turned into `time_t` values and back is left to the C runtime
and the time zone of the machine, which a `Clock` stands for.
-/

namespace RankingServer.Business

/-! ## The table -/

/-- A row of `Score`. -/
structure ScoreRow (Date : Type*) where
  player_id : List UInt8
  score : ℤ
  last_update : Date
deriving DecidableEq, Repr

/-- `Score`, with its primary key. -/
abbrev ScoreTable (Date : Type*) :=
  KeyedTable fun row : ScoreRow Date => row.player_id

/-- The length of the column `player_id`. -/
def PLAYER_ID_LENGTH : ℕ := 16

/-- The conversions of dates: `utcTime` is made with `mktime` and `_mkgmtime`
from the fields of a `TIMESTAMP_STRUCT`, `timestampStr` is what SQL reads from
the text made with `gmtime_s` and `put_time`. -/
structure Clock (Date : Type*) where
  utcTime : Date → ℤ
  timestampStr : ℤ → Date

/-- Dates that are `time_t` values already. -/
def utcClock : Clock ℤ := ⟨id, id⟩

/-! ## Player ids -/

/-- `SQLGetData` of a column of ASCII characters as `SQL_C_WCHAR`, up to the
terminator that it writes behind as many characters as the buffer has room
for. -/
def sqlGetData (size : ℕ) (column : List UInt8) : List UInt16 :=
  (column.map UInt8.toUInt16).take (size / 2 - 1)

/-- One UTF-16 code unit in UTF-8. -/
def utf8Bytes (unit : UInt16) : List UInt8 :=
  if unit < 0x80 then [unit.toUInt8]
  else if unit < 0x800 then
    [0xC0 + (unit / 0x40).toUInt8, 0x80 + (unit % 0x40).toUInt8]
  else
    [0xE0 + (unit / 0x1000).toUInt8, 0x80 + (unit / 0x40 % 0x40).toUInt8,
      0x80 + (unit % 0x40).toUInt8]

/-- `WstringToUTF8` of a terminated string. -/
def wstringToUTF8 (wstr : List UInt16) : List UInt8 :=
  (wstr.takeWhile (· ≠ 0)).flatMap utf8Bytes

/-- `idString`, read through `SQLWCHAR id[16]`. -/
def idString (player_id : List UInt8) : List UInt8 :=
  wstringToUTF8 (sqlGetData (2 * 16) player_id)

/-- All characters are ASCII characters other than NUL. -/
def IsAscii (player_id : List UInt8) : Prop := ∀ b ∈ player_id, 0 < b ∧ b < 0x80

theorem toUInt16_ne_zero {b : UInt8} (h : 0 < b) : b.toUInt16 ≠ 0 := by
  intro hzero
  have hnat := congrArg UInt16.toNat hzero
  have hpos := UInt8.lt_iff_toNat_lt.mp h
  simp only [UInt8.toNat_toUInt16, UInt16.toNat_zero, UInt8.toNat_zero]
    at hnat hpos
  omega

theorem utf8Bytes_toUInt16 {b : UInt8} (h : b < 0x80) :
    utf8Bytes b.toUInt16 = [b] := by
  have hlt : b.toUInt16 < 0x80 := by
    rw [UInt16.lt_iff_toNat_lt, UInt8.toNat_toUInt16]
    exact UInt8.lt_iff_toNat_lt.mp h
  rw [utf8Bytes, if_pos hlt, UInt8.toUInt8_toUInt16]

/-- The buffer has room for 15 characters. -/
theorem idString_of_isAscii {player_id : List UInt8} (h : IsAscii player_id) :
    idString player_id = player_id.take 15 := by
  have hread : ∀ ids : List UInt8, IsAscii ids →
      wstringToUTF8 (ids.map UInt8.toUInt16) = ids := by
    intro ids hids
    induction ids with
    | nil => rfl
    | cons b ids ih =>
        obtain ⟨hb, hids⟩ := List.forall_mem_cons.mp hids
        rw [wstringToUTF8, List.map_cons, List.takeWhile_cons_of_pos
          (by simpa using toUInt16_ne_zero hb.1), List.flatMap_cons,
          utf8Bytes_toUInt16 hb.2]
        exact congrArg (b :: ·) (ih hids)
  rw [idString, sqlGetData, ← List.map_take]
  exact hread _ fun b hb => h b (List.mem_of_mem_take hb)

/-- A character of the column is written without NUL, in well-formed UTF-8. -/
theorem utf8Bytes_column (b : UInt8) (h : b.toUInt16 ≠ 0) :
    0 ∉ utf8Bytes b.toUInt16 ∧
      (utf8Bytes b.toUInt16).foldl Json.Utf8State.decode .accept =
        .accept := by
  have hall : ∀ n : Fin 256, (UInt8.ofFin n).toUInt16 ≠ 0 →
      0 ∉ utf8Bytes (UInt8.ofFin n).toUInt16 ∧
        (utf8Bytes (UInt8.ofFin n).toUInt16).foldl Json.Utf8State.decode
          .accept = .accept := by
    decide +kernel
  exact hall b.toFin h

theorem exists_of_mem_sqlGetData {size : ℕ} {column : List UInt8}
    {unit : UInt16}
    (h : unit ∈ (sqlGetData size column).takeWhile (· ≠ 0)) :
    ∃ b : UInt8, b.toUInt16 = unit ∧ unit ≠ 0 := by
  have hmem := List.mem_of_mem_take ((List.takeWhile_sublist _).mem h)
  obtain ⟨b, -, hb⟩ := List.mem_map.mp hmem
  exact ⟨b, hb, by simpa using List.mem_takeWhile_imp h⟩

theorem zero_notMem_idString (player_id : List UInt8) :
    0 ∉ idString player_id := by
  rw [idString, wstringToUTF8, List.mem_flatMap]
  rintro ⟨unit, hunit, hzero⟩
  obtain ⟨b, rfl, hne⟩ := exists_of_mem_sqlGetData hunit
  exact (utf8Bytes_column b hne).1 hzero

theorem wellFormed_idString (player_id : List UInt8) :
    Json.wellFormed (idString player_id) = true := by
  have hunits : ∀ units : List UInt16,
      (∀ unit ∈ units, ∃ b : UInt8, b.toUInt16 = unit ∧ unit ≠ 0) →
        (units.flatMap utf8Bytes).foldl Json.Utf8State.decode .accept =
          .accept := by
    intro units hunits
    induction units with
    | nil => rfl
    | cons unit units ih =>
        obtain ⟨⟨b, rfl, hne⟩, hrest⟩ := List.forall_mem_cons.mp hunits
        rw [List.flatMap_cons, List.foldl_append, (utf8Bytes_column b hne).2]
        exact ih hrest
  rw [Json.wellFormed, decide_eq_true_eq]
  exact hunits _ fun unit hunit => exists_of_mem_sqlGetData hunit

/-! ## Loading -/

/-- `ScoreDataLoad` on the rows it fetches; `dump` may throw. -/
def scoreDataLoad {Date : Type*} (clock : Clock Date) :
    List (ScoreRow Date) → Store → Option Store
  | [], store => some store
  | row :: rows, store =>
      match Json.dump (Data_Score.toJson (idString row.player_id) row.score
        (clock.utcTime row.last_update)) with
      | none => none
      | some jsonString => scoreDataLoad clock rows
          ((Command.set (setCachedData (ascii "Score") (idString row.player_id)
            jsonString 600)).execute store)

/-! ## Saving -/

/-- What `ScoreDataSave` makes of the answer to a `GET`: the inner option is
`none` for a missing entry, the outer one where parsing or a conversion
throws. -/
def readScore (reply : Option (List UInt8)) : Option (Option Data_Score) :=
  match reply with
  | none => some none
  | some str => ((Json.parse (cString str)).bind Data_Score.ofJson).map some

/-- `SQLExecute` of the `MERGE` statement.  An id that is longer than the column
makes it fail, which is only reported.  Ids are compared byte by byte, as under
a binary collation. -/
def mergeScore {Date : Type*} (clock : Clock Date) (data : Data_Score)
    (table : ScoreTable Date) : ScoreTable Date :=
  if (cString data.mPlayerId).length ≤ PLAYER_ID_LENGTH then
    table.upsert ⟨cString data.mPlayerId, data.mScore,
      clock.timestampStr data.mLastUpdate⟩
  else table

/-- The `for` loop of `ScoreDataSave` over the keys of a reply. -/
def saveKeys {Date : Type*} (clock : Clock Date) (store : Store) :
    List (List UInt8) → ScoreTable Date → Option (ScoreTable Date)
  | [], table => some table
  | key :: keys, table =>
      match readScore (store (cString key)) with
      | none => none
      | some none => saveKeys clock store keys table
      | some (some data) =>
          saveKeys clock store keys (mergeScore clock data table)

/-- The `do` loop of `ScoreDataSave` over the replies to its `SCAN` commands,
each with the next cursor and some keys.  When there are no more replies, `SCAN`
fails and the function returns. -/
def scoreDataSave {Date : Type*} (clock : Clock Date) (store : Store) :
    List (ℕ × List (List UInt8)) → ScoreTable Date → Option (ScoreTable Date)
  | [], table => some table
  | (cursor, keys) :: replies, table =>
      (stoi cursor).bind fun cursor =>
      (saveKeys clock store keys table).bind fun table =>
      if cursor = 0 then some table else scoreDataSave clock store replies table

/-! ## Entries of the score cache -/

def scoreKey (playerId : List UInt8) : List UInt8 :=
  cacheKey (ascii "Score") playerId

/-- The keys that match `table:Score:*`. -/
def IsScoreKey (key : List UInt8) : Prop := ascii "table:Score:" <+: key

instance : DecidablePred IsScoreKey :=
  fun key => inferInstanceAs (Decidable (ascii "table:Score:" <+: key))

/-- The entry that the program stores for a score. -/
structure ScoreEntry (key text : List UInt8) (data : Data_Score) : Prop where
  key : key = scoreKey data.mPlayerId
  text : Json.dump (Data_Score.toJson data.mPlayerId data.mScore
    data.mLastUpdate) = some text
  noNul : 0 ∉ data.mPlayerId
  isInt : IsInt data.mScore
  fits : data.mPlayerId.length ≤ PLAYER_ID_LENGTH

/-- All entries with a score key are entries for a score. -/
def ScoreCache (store : Store) : Prop :=
  ∀ key text, store key = some text → IsScoreKey key →
    ∃ data, ScoreEntry key text data

/-- The cache has the text of this score under the key of its player. -/
def Caches (store : Store) (data : Data_Score) : Prop :=
  ∃ text, store (scoreKey data.mPlayerId) = some text ∧
    ScoreEntry (scoreKey data.mPlayerId) text data

/-- The score of a player in the cache. -/
def cachedScore (store : Store) (playerId : List UInt8) : Option Data_Score :=
  (readScore (store (scoreKey playerId))).join

theorem cString_of_notMem {bytes : List UInt8} (h : 0 ∉ bytes) :
    cString bytes = bytes := by
  rw [cString, List.takeWhile_eq_self_iff]
  intro b hb
  simpa using ne_of_mem_of_not_mem hb h

theorem scoreKey_eq (playerId : List UInt8) :
    scoreKey playerId = ascii "table:Score:" ++ playerId := by
  rw [scoreKey, cacheKey]
  rfl

theorem isScoreKey_scoreKey (playerId : List UInt8) :
    IsScoreKey (scoreKey playerId) := by
  rw [scoreKey_eq]
  exact List.prefix_append _ _

theorem scoreKey_injective : Function.Injective scoreKey := by
  intro id id' h
  rw [scoreKey_eq, scoreKey_eq] at h
  exact List.append_cancel_left h

theorem zero_notMem_scoreKey {playerId : List UInt8} (h : 0 ∉ playerId) :
    0 ∉ scoreKey playerId := by
  rw [scoreKey_eq, List.mem_append, not_or]
  exact ⟨by decide, h⟩

/-- The command that stores a score uses the key and the text of the entry. -/
theorem setCachedData_score {playerId jsonString : List UInt8}
    {members : Json.Members} (hid : 0 ∉ playerId)
    (htext : Json.dump members = some jsonString) (ttl : ℕ) :
    setCachedData (ascii "Score") playerId jsonString ttl =
      ⟨scoreKey playerId, jsonString, ttl⟩ := by
  have hkey : cString (cacheKey (ascii "Score") playerId) = scoreKey playerId :=
    cString_of_notMem (zero_notMem_scoreKey hid)
  rw [setCachedData, hkey, cString_of_notMem (Json.zero_notMem_dump htext)]

namespace ScoreEntry

variable {key text : List UInt8} {data : Data_Score}

theorem readScore (h : ScoreEntry key text data) :
    readScore (some text) = some (some data) := by
  have hparse := Json.parse_dump h.text
  have hread := Data_Score.ofJson_toJson data.mPlayerId h.isInt data.mLastUpdate
  simp only [Business.readScore,
    cString_of_notMem (Json.zero_notMem_dump h.text), hparse,
    Option.bind_some, hread, Option.map_some]

end ScoreEntry

theorem cachedScore_of_entry {store : Store} {text : List UInt8}
    {data : Data_Score}
    (hentry : ScoreEntry (scoreKey data.mPlayerId) text data)
    (hstore : store (scoreKey data.mPlayerId) = some text) :
    cachedScore store data.mPlayerId = some data := by
  rw [cachedScore, hstore, hentry.readScore]
  rfl

theorem Caches.cachedScore {store : Store} {data : Data_Score}
    (h : Caches store data) : cachedScore store data.mPlayerId = some data := by
  obtain ⟨text, hstore, hentry⟩ := h
  exact cachedScore_of_entry hentry hstore

/-! ## What a load does -/

section Load

variable {Date : Type*}

/-- What is cached for a row. -/
def ScoreRow.cached (clock : Clock Date) (row : ScoreRow Date) : Data_Score :=
  ⟨idString row.player_id, row.score, clock.utcTime row.last_update⟩

/-- Rows that fit the columns of the table, with ids of ASCII characters. -/
structure ScoreRow.Valid (row : ScoreRow Date) : Prop where
  ascii : IsAscii row.player_id
  nonempty : row.player_id ≠ []
  fits : row.player_id.length ≤ PLAYER_ID_LENGTH
  isInt : IsInt row.score

/-- The text that is cached for a row. -/
theorem ScoreRow.exists_text (clock : Clock Date) (row : ScoreRow Date) :
    ∃ text, Json.dump (Data_Score.toJson (idString row.player_id) row.score
      (clock.utcTime row.last_update)) = some text :=
  Data_Score.exists_dump_toJson (wellFormed_idString row.player_id) _ _

/-- In a valid row the text is an entry of the cache. -/
theorem ScoreRow.Valid.entry {row : ScoreRow Date} (h : row.Valid)
    {clock : Clock Date} {text : List UInt8}
    (htext : Json.dump (Data_Score.toJson (idString row.player_id) row.score
      (clock.utcTime row.last_update)) = some text) :
    ScoreEntry (scoreKey (idString row.player_id)) text (row.cached clock) := by
  refine ⟨rfl, htext, zero_notMem_idString _, h.isInt, ?_⟩
  have hlength : (idString row.player_id).length ≤ 15 := by
    rw [idString_of_isAscii h.ascii]
    exact List.length_take_le _ _
  exact hlength.trans (by decide)

/-- The row that is fetched last among those with a key. -/
def lastRow (rows : List (ScoreRow Date)) (key : List UInt8) :
    Option (ScoreRow Date) :=
  rows.reverse.find? fun row => scoreKey (idString row.player_id) = key

theorem lastRow_cons (row : ScoreRow Date) (rows : List (ScoreRow Date))
    (key : List UInt8) :
    lastRow (row :: rows) key = (lastRow rows key).or
      (if scoreKey (idString row.player_id) = key then some row else none) := by
  rw [lastRow, List.reverse_cons, List.find?_append]
  congr 1
  by_cases hkey : scoreKey (idString row.player_id) = key <;> simp [hkey]

/-- After a load the entry under a key is that of the last row with the key. -/
theorem scoreDataLoad_lookup (clock : Clock Date) (rows : List (ScoreRow Date))
    (store : Store) :
    ∃ store', scoreDataLoad clock rows store = some store' ∧
      ∀ key,
        (∀ row, lastRow rows key = some row →
          store' key = Json.dump (Data_Score.toJson (idString row.player_id)
            row.score (clock.utcTime row.last_update))) ∧
        (lastRow rows key = none → store' key = store key) := by
  induction rows generalizing store with
  | nil => exact ⟨store, rfl, fun key => ⟨(by rintro _ ⟨⟩), fun _ => rfl⟩⟩
  | cons row rows ih =>
      obtain ⟨text, htext⟩ := row.exists_text clock
      have hcommand :=
        setCachedData_score (zero_notMem_idString row.player_id) htext 600
      obtain ⟨store', hload, hstore'⟩ :=
        ih ((Command.set ⟨_, text, 600⟩).execute store)
      refine ⟨store', ?_, fun key => ?_⟩
      · rw [scoreDataLoad, htext]
        simp only [hcommand]
        exact hload
      · obtain ⟨hlast, hnone⟩ := hstore' key
        have hcons := lastRow_cons row rows key
        cases hrow' : lastRow rows key with
        | some r =>
            rw [hrow', Option.some_or] at hcons
            rw [hcons]
            exact ⟨fun r' hr' => hlast r' (hrow'.trans hr'), (by simp)⟩
        | none =>
            rw [hrow', Option.none_or] at hcons
            rw [hcons, hnone hrow']
            by_cases hkey : scoreKey (idString row.player_id) = key
            · subst hkey
              rw [if_pos rfl]
              refine ⟨fun r hr => ?_, (by simp)⟩
              obtain rfl := Option.some.inj hr
              rw [htext]
              exact Function.update_self _ _ _
            · rw [if_neg hkey]
              exact ⟨(by simp),
                fun _ => Function.update_of_ne (Ne.symm hkey) _ _⟩

/-- After a load of valid rows the entry under a key is that of the last row
with the key. -/
theorem scoreDataLoad_eq (clock : Clock Date) {rows : List (ScoreRow Date)}
    (hrows : ∀ row ∈ rows, row.Valid) (store : Store) :
    ∃ store', scoreDataLoad clock rows store = some store' ∧
      ∀ key,
        (∀ row, lastRow rows key = some row →
          ∃ text, store' key = some text ∧
            ScoreEntry key text (row.cached clock)) ∧
        (lastRow rows key = none → store' key = store key) := by
  obtain ⟨store', hload, hstore'⟩ := scoreDataLoad_lookup clock rows store
  refine ⟨store', hload, fun key => ⟨fun row hrow => ?_, (hstore' key).2⟩⟩
  obtain ⟨text, htext⟩ := row.exists_text clock
  have hmem := List.mem_reverse.mp (List.mem_of_find?_eq_some hrow)
  obtain rfl : scoreKey (idString row.player_id) = key := by
    simpa using List.find?_some hrow
  exact ⟨text, ((hstore' _).1 row hrow).trans htext,
    (hrows row hmem).entry htext⟩

/-- A load of valid rows leaves a score cache a score cache. -/
theorem ScoreCache.scoreDataLoad {clock : Clock Date} {store store' : Store}
    (hcache : ScoreCache store) {rows : List (ScoreRow Date)}
    (hrows : ∀ row ∈ rows, row.Valid)
    (hload : scoreDataLoad clock rows store = some store') :
    ScoreCache store' := by
  obtain ⟨loaded, hload', hloaded⟩ := scoreDataLoad_eq clock hrows store
  obtain rfl := Option.some.inj (hload.symm.trans hload')
  intro key text hkey hscore
  cases hlast : lastRow rows key with
  | none =>
      rw [(hloaded key).2 hlast] at hkey
      exact hcache key text hkey hscore
  | some row =>
      obtain ⟨text', htext, hentry⟩ := (hloaded key).1 row hlast
      obtain rfl := Option.some.inj (hkey.symm.trans htext)
      exact ⟨_, hentry⟩

end Load

/-! ## What a save does -/

/-- The replies to the `SCAN` commands of a save while the cache does not
change: every key with the pattern is returned at least once, others are not,
and the last cursor is zero. -/
structure Scan (store : Store) (replies : List (ℕ × List (List UInt8))) :
    Prop where
  ends : ∃ batches keys, replies = batches ++ [(0, keys)] ∧
    ∀ batch ∈ batches, batch.1 ≠ 0
  cursors : ∀ reply ∈ replies, reply.1 < 2 ^ 31
  sound : ∀ reply ∈ replies, ∀ key ∈ reply.2,
    IsScoreKey key ∧ (store key).isSome
  complete : ∀ key, IsScoreKey key → (store key).isSome →
    ∃ reply ∈ replies, key ∈ reply.2

section Save

variable {Date : Type*} {clock : Clock Date} {store : Store}

/-- The row that is merged for an entry. -/
def ScoreRow.ofData (clock : Clock Date) (data : Data_Score) : ScoreRow Date :=
  ⟨data.mPlayerId, data.mScore, clock.timestampStr data.mLastUpdate⟩

theorem lookup_mergeScore {key text : List UInt8} {data : Data_Score}
    (h : ScoreEntry key text data) (table : ScoreTable Date) :
    (mergeScore clock data table).lookup =
      Function.update table.lookup data.mPlayerId
        (some (.ofData clock data)) := by
  have hid := cString_of_notMem h.noNul
  rw [mergeScore, hid, if_pos h.fits, KeyedTable.lookup_upsert]
  rfl

/-- All entries with a score key can be read, and are filed under their own
players as far as a C string can tell. -/
def ReadableScores (store : Store) : Prop :=
  ∀ key text, store key = some text → IsScoreKey key →
    ∃ data, readScore (some text) = some (some data) ∧
      key = scoreKey (cString data.mPlayerId)

theorem ScoreCache.readableScores (h : ScoreCache store) :
    ReadableScores store := by
  intro key text hstore hkey
  obtain ⟨data, hentry⟩ := h key text hstore hkey
  refine ⟨data, hentry.readScore, ?_⟩
  rw [cString_of_notMem hentry.noNul]
  exact hentry.key

/-- The row that is merged for the entry of a player, if the id fits the
column. -/
def entryRow (clock : Clock Date) (store : Store) (playerId : List UInt8) :
    Option (ScoreRow Date) :=
  (cachedScore store playerId).bind fun data =>
    if playerId.length ≤ PLAYER_ID_LENGTH then
      some ⟨playerId, data.mScore, clock.timestampStr data.mLastUpdate⟩
    else none

theorem lookup_mergeScore_of_cachedScore {data : Data_Score}
    (h : cachedScore store (cString data.mPlayerId) = some data)
    (table : ScoreTable Date) (playerId : List UInt8) :
    (mergeScore clock data table).lookup playerId =
      if playerId = cString data.mPlayerId then
        (entryRow clock store playerId).or (table.lookup playerId)
      else table.lookup playerId := by
  by_cases hself : playerId = cString data.mPlayerId
  · subst hself
    rw [if_pos rfl, entryRow, h, mergeScore]
    by_cases hfits : (cString data.mPlayerId).length ≤ PLAYER_ID_LENGTH
    · simp [hfits, KeyedTable.lookup_upsert]
    · simp [hfits]
  · rw [if_neg hself, mergeScore]
    split
    · rw [KeyedTable.lookup_upsert, Function.update_of_ne hself]
    · rfl

/-- The row of a player after the entries with some keys were merged. -/
def savedRow (clock : Clock Date) (store : Store) (keys : List (List UInt8))
    (table : ScoreTable Date) (playerId : List UInt8) :
    Option (ScoreRow Date) :=
  if scoreKey playerId ∈ keys then
    (entryRow clock store playerId).or (table.lookup playerId)
  else table.lookup playerId

/-- Merging with more keys is merging twice. -/
theorem savedRow_append {keys keys' : List (List UInt8)}
    {table table' : ScoreTable Date}
    (h : ∀ playerId, table'.lookup playerId =
      savedRow clock store keys table playerId) (playerId : List UInt8) :
    savedRow clock store keys' table' playerId =
      savedRow clock store (keys ++ keys') table playerId := by
  rw [savedRow, savedRow, h, savedRow]
  by_cases hkeys : scoreKey playerId ∈ keys
  · by_cases hkeys' : scoreKey playerId ∈ keys'
    · simp [hkeys, hkeys', ← Option.or_assoc]
    · simp [hkeys, hkeys']
  · simp [hkeys]

theorem zero_notMem_cString (bytes : List UInt8) : 0 ∉ cString bytes := by
  intro hzero
  have hne := List.mem_takeWhile_imp hzero
  revert hne
  decide

theorem saveKeys_lookup (clock : Clock Date) (hscores : ReadableScores store)
    {keys : List (List UInt8)}
    (hkeys : ∀ key ∈ keys, IsScoreKey key ∧ (store key).isSome)
    (table : ScoreTable Date) :
    ∃ table', saveKeys clock store keys table = some table' ∧
      ∀ playerId, table'.lookup playerId =
        savedRow clock store keys table playerId := by
  induction keys generalizing table with
  | nil => exact ⟨table, rfl, fun playerId => rfl⟩
  | cons key keys ih =>
      obtain ⟨⟨hkey, hsome⟩, hrest⟩ := List.forall_mem_cons.mp hkeys
      obtain ⟨text, hstore⟩ := Option.isSome_iff_exists.mp hsome
      obtain ⟨data, hread, rfl⟩ := hscores key text hstore hkey
      obtain ⟨table', hsave, hlookup⟩ := ih hrest (mergeScore clock data table)
      have hcached :
          cachedScore store (cString data.mPlayerId) = some data := by
        rw [cachedScore, hstore, hread]
        rfl
      refine ⟨table', ?_, fun playerId => ?_⟩
      · rw [saveKeys, cString_of_notMem
          (zero_notMem_scoreKey (zero_notMem_cString _)), hstore, hread]
        exact hsave
      · have hfirst (playerId : List UInt8) :
            (mergeScore clock data table).lookup playerId =
              savedRow clock store [scoreKey (cString data.mPlayerId)] table
                playerId := by
          rw [lookup_mergeScore_of_cachedScore hcached]
          simp only [savedRow, List.mem_singleton,
            scoreKey_injective.eq_iff]
        rw [hlookup, savedRow_append hfirst]
        rfl

/-- The loop over the replies merges the entries with their keys. -/
theorem scoreDataSave_lookup_batches (clock : Clock Date)
    (hscores : ReadableScores store)
    {batches : List (ℕ × List (List UInt8))} {last : List (List UInt8)}
    (hnonzero : ∀ batch ∈ batches, batch.1 ≠ 0)
    (hcursors : ∀ batch ∈ batches, batch.1 < 2 ^ 31)
    (hkeys : ∀ reply ∈ batches ++ [(0, last)], ∀ key ∈ reply.2,
      IsScoreKey key ∧ (store key).isSome)
    (table : ScoreTable Date) :
    ∃ table', scoreDataSave clock store (batches ++ [(0, last)]) table =
        some table' ∧
      ∀ playerId, table'.lookup playerId = savedRow clock store
        ((batches ++ [(0, last)]).flatMap Prod.snd) table playerId := by
  induction batches generalizing table with
  | nil =>
      obtain ⟨table', hsave, hlookup⟩ :=
        saveKeys_lookup clock hscores (hkeys (0, last) (by simp)) table
      refine ⟨table', ?_, by simpa using hlookup⟩
      simp [scoreDataSave, stoi, hsave]
  | cons batch batches ih =>
      obtain ⟨cursor, keys⟩ := batch
      obtain ⟨hbatch, hrest⟩ := List.forall_mem_cons.mp hkeys
      obtain ⟨hne, hnonzero⟩ := List.forall_mem_cons.mp hnonzero
      obtain ⟨hlt, hcursors⟩ := List.forall_mem_cons.mp hcursors
      obtain ⟨table₁, hsave₁, hlookup₁⟩ :=
        saveKeys_lookup clock hscores hbatch table
      obtain ⟨table', hsave, hlookup⟩ := ih hnonzero hcursors hrest table₁
      refine ⟨table', ?_, fun playerId => ?_⟩
      · have hcursor : (cursor : ℤ) ≠ 0 := by simpa using hne
        rw [List.cons_append, scoreDataSave, stoi, if_pos hlt, Option.bind_some,
          hsave₁, Option.bind_some, if_neg hcursor]
        exact hsave
      · rw [hlookup, savedRow_append hlookup₁]
        rfl

/-- A save merges the entries that can be merged, whatever batches the scan
returns. -/
theorem scoreDataSave_lookup (clock : Clock Date)
    (hscores : ReadableScores store)
    {replies : List (ℕ × List (List UInt8))} (hscan : Scan store replies)
    (table : ScoreTable Date) :
    ∃ table', scoreDataSave clock store replies table = some table' ∧
      ∀ playerId, table'.lookup playerId =
        (entryRow clock store playerId).or (table.lookup playerId) := by
  obtain ⟨batches, last, rfl, hnonzero⟩ := hscan.ends
  obtain ⟨table', hsave, hlookup⟩ := scoreDataSave_lookup_batches clock
    hscores hnonzero (fun batch hmem => hscan.cursors batch (by simp [hmem]))
    hscan.sound table
  refine ⟨table', hsave, fun playerId => ?_⟩
  rw [hlookup, savedRow]
  cases hstore : store (scoreKey playerId) with
  | none =>
      have hentry : entryRow clock store playerId = none := by
        rw [entryRow, cachedScore, hstore]
        rfl
      rw [hentry, Option.none_or, ite_self]
  | some text =>
      obtain ⟨reply, hreply, hkey⟩ := hscan.complete _
        (isScoreKey_scoreKey playerId) (Option.isSome_of_eq_some hstore)
      rw [if_pos (List.mem_flatMap_of_mem hreply hkey)]

/-- A score in the cache has an entry. -/
theorem ScoreCache.entry (hcache : ScoreCache store) {playerId : List UInt8}
    {data : Data_Score} (hcached : cachedScore store playerId = some data) :
    ∃ text, ScoreEntry (scoreKey playerId) text data := by
  cases hstore : store (scoreKey playerId) with
  | none =>
      rw [cachedScore, hstore] at hcached
      cases hcached
  | some text =>
      obtain ⟨data', hentry⟩ := hcache _ _ hstore (isScoreKey_scoreKey playerId)
      obtain rfl := scoreKey_injective hentry.key
      have hself := cachedScore_of_entry hentry hstore
      obtain rfl := Option.some.inj (hself.symm.trans hcached)
      exact ⟨text, hentry⟩

/-- What is read for a player is what the cache holds. -/
theorem ScoreCache.caches (hcache : ScoreCache store) {playerId : List UInt8}
    {data : Data_Score} (hcached : cachedScore store playerId = some data) :
    data.mPlayerId = playerId ∧ Caches store data := by
  obtain ⟨text, hentry⟩ := hcache.entry hcached
  obtain rfl := scoreKey_injective hentry.key
  refine ⟨rfl, ?_⟩
  cases hstore : store (scoreKey data.mPlayerId) with
  | none =>
      rw [Business.cachedScore, hstore] at hcached
      cases hcached
  | some text' =>
      obtain ⟨data', hentry'⟩ := hcache _ _ hstore (isScoreKey_scoreKey _)
      have hid := scoreKey_injective hentry'.key
      have hself := cachedScore_of_entry (hid ▸ hentry') (hid ▸ hstore)
      rw [← hid] at hself
      obtain rfl := Option.some.inj (hself.symm.trans hcached)
      exact ⟨text', hstore, hentry'⟩

/-- In a score cache every entry can be merged. -/
theorem entryRow_of_scoreCache (hcache : ScoreCache store)
    (playerId : List UInt8) :
    entryRow clock store playerId =
      (cachedScore store playerId).map (ScoreRow.ofData clock) := by
  cases hcached : cachedScore store playerId with
  | none =>
      rw [entryRow, hcached]
      rfl
  | some data =>
      obtain ⟨text, hentry⟩ := hcache.entry hcached
      obtain rfl := scoreKey_injective hentry.key
      rw [entryRow, hcached, Option.bind_some, if_pos hentry.fits]
      rfl

/-- A save merges exactly the entries of the score cache into the table,
whatever batches the scan returns. -/
theorem scoreDataSave_eq (clock : Clock Date) (hcache : ScoreCache store)
    {replies : List (ℕ × List (List UInt8))} (hscan : Scan store replies)
    (table : ScoreTable Date) :
    ∃ table', scoreDataSave clock store replies table = some table' ∧
      ∀ playerId, table'.lookup playerId =
        ((cachedScore store playerId).map (ScoreRow.ofData clock)).or
          (table.lookup playerId) := by
  obtain ⟨table', hsave, hlookup⟩ :=
    scoreDataSave_lookup clock hcache.readableScores hscan table
  refine ⟨table', hsave, fun playerId => ?_⟩
  rw [hlookup, entryRow_of_scoreCache hcache]

/-- The same in terms of the entries: those of the cache are in the table, and
the rows of other players are what they were. -/
theorem scoreDataSave_entries (clock : Clock Date) (hcache : ScoreCache store)
    {replies : List (ℕ × List (List UInt8))} (hscan : Scan store replies)
    (table : ScoreTable Date) :
    ∃ table', scoreDataSave clock store replies table = some table' ∧
      (∀ data, Caches store data →
        table'.lookup data.mPlayerId = some (.ofData clock data)) ∧
      ∀ playerId, store (scoreKey playerId) = none →
        table'.lookup playerId = table.lookup playerId := by
  obtain ⟨table', hsave, hlookup⟩ := scoreDataSave_eq clock hcache hscan table
  refine ⟨table', hsave, ?_, ?_⟩
  · intro data hdata
    rw [hlookup, hdata.cachedScore, Option.map_some, Option.some_or]
  · intro playerId hstore
    rw [hlookup, Business.cachedScore, hstore]
    rfl

end Save

end RankingServer.Business
