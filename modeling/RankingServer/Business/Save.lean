import RankingServer.Business.Reload
import RankingServer.Business.Timestamp

/-!
# What a save leaves in SQL

`ScoreDataSave` puts the cached scores and dates into the table, whatever the
`SCAN` commands return in whatever order, and leaves the rest of the table
alone.  A second save finds nothing to do.  The second part of the module is
about the cursors that lead from one `SCAN` to the next.
-/

namespace RankingServer.Business

open Calendar

/-! ## A save that has been made -/

section Saved

variable {Date : Type*} {clock : Clock Date} {store : Store}
  {table : ScoreTable Date}

/-- The table holds what is cached. -/
def Saved (clock : Clock Date) (store : Store) (table : ScoreTable Date) :
    Prop :=
  ∀ playerId data, cachedScore store playerId = some data →
    table.lookup playerId = some (.ofData clock data)

theorem isScoreKey_cString {key : List UInt8} (h : IsScoreKey key) :
    IsScoreKey (cString key) := by
  obtain ⟨playerId, rfl⟩ := h
  rw [← scoreKey_eq, cString_scoreKey]
  exact isScoreKey_scoreKey _

theorem mergeScore_eq_self {key text : List UInt8} {data : Data_Score}
    (hentry : ScoreEntry key text data)
    (hrow : table.lookup data.mPlayerId = some (.ofData clock data)) :
    mergeScore clock data table = table := by
  rw [mergeScore, cString_of_notMem hentry.noNul, if_pos hentry.fits]
  exact KeyedTable.upsert_eq_self hrow

/-- Merging what the table holds does not change it. -/
theorem saveKeys_eq_self (hcache : ScoreCache store)
    (hsaved : Saved clock store table) {keys : List (List UInt8)}
    (hkeys : ∀ key ∈ keys, IsScoreKey key) :
    saveKeys clock store keys table = some table := by
  induction keys with
  | nil => rfl
  | cons key keys ih =>
      obtain ⟨hkey, hrest⟩ := List.forall_mem_cons.mp hkeys
      cases hstore : store (cString key) with
      | none =>
          rw [saveKeys, hstore]
          exact ih hrest
      | some text =>
          obtain ⟨data, hentry⟩ :=
            hcache _ _ hstore (isScoreKey_cString hkey)
          have hcached : cachedScore store data.mPlayerId = some data := by
            rw [cachedScore, ← hentry.key, hstore, hentry.readScore]
            rfl
          simp only [saveKeys, hstore, hentry.readScore,
            mergeScore_eq_self hentry (hsaved _ _ hcached)]
          exact ih hrest

theorem scoreDataSave_eq_self (hcache : ScoreCache store)
    (hsaved : Saved clock store table)
    {replies : List (ℕ × List (List UInt8))}
    (hcursors : ∀ reply ∈ replies, reply.1 < 2 ^ 31)
    (hkeys : ∀ reply ∈ replies, ∀ key ∈ reply.2, IsScoreKey key) :
    scoreDataSave clock store replies table = some table := by
  induction replies with
  | nil => rfl
  | cons reply replies ih =>
      obtain ⟨cursor, keys⟩ := reply
      obtain ⟨hcursor, hcursors⟩ := List.forall_mem_cons.mp hcursors
      obtain ⟨hkey, hkeys⟩ := List.forall_mem_cons.mp hkeys
      rw [scoreDataSave, stoi, if_pos hcursor, Option.bind_some,
        saveKeys_eq_self hcache hsaved hkey, Option.bind_some,
        ih hcursors hkeys, ite_self]

/-- Only the entries of the score cache are read. -/
theorem saveKeys_congr {store' : Store}
    (hstore : ∀ key, IsScoreKey key → store' key = store key)
    {keys : List (List UInt8)} (hkeys : ∀ key ∈ keys, IsScoreKey key)
    (table : ScoreTable Date) :
    saveKeys clock store' keys table = saveKeys clock store keys table := by
  induction keys generalizing table with
  | nil => rfl
  | cons key keys ih =>
      obtain ⟨hkey, hrest⟩ := List.forall_mem_cons.mp hkeys
      rw [saveKeys, saveKeys, hstore _ (isScoreKey_cString hkey)]
      simp only [ih hrest]

theorem scoreDataSave_congr {store' : Store}
    (hstore : ∀ key, IsScoreKey key → store' key = store key)
    {replies : List (ℕ × List (List UInt8))}
    (hkeys : ∀ reply ∈ replies, ∀ key ∈ reply.2, IsScoreKey key)
    (table : ScoreTable Date) :
    scoreDataSave clock store' replies table =
      scoreDataSave clock store replies table := by
  induction replies generalizing table with
  | nil => rfl
  | cons reply replies ih =>
      obtain ⟨cursor, keys⟩ := reply
      obtain ⟨hkey, hkeys⟩ := List.forall_mem_cons.mp hkeys
      simp only [scoreDataSave, saveKeys_congr hstore hkey, ih hkeys]

end Saved

/-! ## The rows with their dates -/

/-- The cached dates are in the range of `gmtime_s`. -/
def DatesInRange (store : Store) : Prop :=
  ∀ data, Caches store data →
    0 ≤ data.mLastUpdate ∧ data.mLastUpdate ≤ GMTIME_MAX

/-- The second table has the cached scores, with the dates that SQL reads from
the texts for the cached dates, and otherwise the rows of the first. -/
structure Upserted (store : Store) (table table' : ScoreTable DateTime) :
    Prop where
  cached : ∀ data, Caches store data →
    ∃ text d, timestampStr data.mLastUpdate = some text ∧
      text.length = SQL_TIMESTAMP_LENGTH ∧ sqlDateTime text = some d ∧
      unixTime d = data.mLastUpdate ∧
      table'.lookup data.mPlayerId = some ⟨data.mPlayerId, data.mScore, d⟩
  others : ∀ playerId, store (scoreKey playerId) = none →
    table'.lookup playerId = table.lookup playerId

/-- A save puts the cached scores into the table, in whatever batches and
however often the scan returns them, without reading anything but the score
cache, and a second save changes nothing. -/
theorem upserted_of_scoreDataSave (zone : Zone) (unusable : ℤ → DateTime)
    {store : Store} (hcache : ScoreCache store) (hdates : DatesInRange store)
    {replies : List (ℕ × List (List UInt8))} (hscan : Scan store replies)
    (table : ScoreTable DateTime) :
    ∃ table',
      scoreDataSave (runtimeClock zone unusable) store replies table =
          some table' ∧
        Upserted store table table' ∧
        (∀ store', (∀ key, IsScoreKey key → store' key = store key) →
          scoreDataSave (runtimeClock zone unusable) store' replies table =
            some table') ∧
        ∀ replies', Scan store replies' →
          scoreDataSave (runtimeClock zone unusable) store replies' table' =
            some table' := by
  obtain ⟨table', hsave, hcached, hothers⟩ :=
    scoreDataSave_entries (runtimeClock zone unusable) hcache hscan table
  have hkeys {replies : List (ℕ × List (List UInt8))}
      (hscan : Scan store replies) :
      ∀ reply ∈ replies, ∀ key ∈ reply.2, IsScoreKey key :=
    fun reply hreply key hkey => (hscan.sound reply hreply key hkey).1
  have hsaved : Saved (runtimeClock zone unusable) store table' := by
    intro playerId data hread
    obtain ⟨rfl, hdata⟩ := hcache.caches hread
    exact hcached data hdata
  refine ⟨table', hsave, ⟨?_, hothers⟩, ?_, ?_⟩
  · intro data hdata
    obtain ⟨text, htext⟩ :=
      (exists_timestampStr_iff _).mpr (hdates data hdata)
    obtain ⟨hlength, d, hread, htime⟩ := denotes_of_timestampStr htext
    refine ⟨text, d, htext, hlength, hread, htime, ?_⟩
    rw [hcached data hdata, ScoreRow.ofData, runtimeClock]
    simp only [htext, Option.bind_some, hread, Option.getD_some]
  · intro store' hstore
    rw [scoreDataSave_congr hstore (hkeys hscan), hsave]
  · intro replies' hscan'
    exact scoreDataSave_eq_self hcache hsaved hscan'.cursors (hkeys hscan')

/-- A player who was last updated in the summer. -/
def summerRows : List (ScoreRow DateTime) := [⟨ascii "A", 100, midsummer⟩]

theorem upserted_summerRows :
    ∃ store table',
      scoreDataLoad (runtimeClock koreanTime fun _ => midsummer) summerRows
          (fun _ => none) = some store ∧
        scoreDataSave (runtimeClock koreanTime fun _ => midsummer) store
            [(0, [ascii "table:Score:A"])] (KeyedTable.empty _) = some table' ∧
        table'.rows = summerRows ∧
        Upserted store (KeyedTable.empty _) table' := by
  have hrows : ∀ row ∈ summerRows, row.Valid := by decide +kernel
  obtain ⟨store, hload, hcache, -, hcached⟩ :=
    exists_scoreDataLoad (runtimeClock koreanTime fun _ => midsummer) hrows
  have hdates : DatesInRange store := by
    intro data hdata
    have hread := hdata.cachedScore
    rw [hcached] at hread
    obtain ⟨row, hrow, rfl⟩ := Option.map_eq_some_iff.mp hread
    have hmem := List.mem_reverse.mp (List.mem_of_find?_eq_some hrow)
    obtain rfl := List.mem_singleton.mp hmem
    decide +kernel
  obtain ⟨table', hsave, hupserted, -⟩ :=
    upserted_of_scoreDataSave koreanTime (fun _ => midsummer) hcache hdates
      (scan_loaded hrows hload) (KeyedTable.empty _)
  have hevaluated :
      ((scoreDataLoad (runtimeClock koreanTime fun _ => midsummer) summerRows
        fun _ => none).bind fun store =>
          scoreDataSave (runtimeClock koreanTime fun _ => midsummer) store
            [(0, [ascii "table:Score:A"])] (KeyedTable.empty _)).map
        KeyedTable.rows = some summerRows := by
    decide +kernel
  rw [hload, Option.bind_some] at hevaluated
  have hmap := congrArg (Option.map KeyedTable.rows) hsave
  exact ⟨store, table', hload, hsave,
    Option.some.inj (hmap.symm.trans hevaluated), hupserted⟩

/-! ## The cursors of a scan -/

section Cursors

variable {Date : Type*} {clock : Clock Date}

/-- What a `SCAN` leads to: the next cursor, and the answers to the `GET`s for
the keys. -/
structure ScanReply where
  cursor : ℕ
  values : List (Option (List UInt8))

/-- How the loop ends: at the cursor zero, at a failing `SCAN`, or with an
exception. -/
inductive ScanEnd (Date : Type*)
  | saved (table : ScoreTable Date)
  | scanFailed (table : ScoreTable Date)
  | thrown

/-- The `for` loop of `ScoreDataSave` over the answers to its `GET`s. -/
def saveValues (clock : Clock Date) :
    List (Option (List UInt8)) → ScoreTable Date → Option (ScoreTable Date)
  | [], table => some table
  | value :: values, table =>
      match readScore value with
      | none => none
      | some none => saveValues clock values table
      | some (some data) =>
          saveValues clock values (mergeScore clock data table)

def scanCommand (cursor : ℤ) : Command :=
  .scan cursor (ascii "table:Score:*")

/-- The `do` loop of `ScoreDataSave` from a cursor on, with the `SCAN` commands
that it issues. -/
def scanLoop (clock : Clock Date) (cursor : ℤ) :
    List ScanReply → ScoreTable Date → List Command × ScanEnd Date
  | [], table => ([scanCommand cursor], .scanFailed table)
  | reply :: replies, table =>
      match stoi reply.cursor with
      | none => ([scanCommand cursor], .thrown)
      | some next =>
          match saveValues clock reply.values table with
          | none => ([scanCommand cursor], .thrown)
          | some table =>
              if next = 0 then ([scanCommand cursor], .saved table)
              else
                let rest := scanLoop clock next replies table
                (scanCommand cursor :: rest.1, rest.2)

/-- The table that the loop leaves, unless it throws. -/
def ScanEnd.table : ScanEnd Date → Option (ScoreTable Date)
  | saved table | scanFailed table => some table
  | thrown => none

/-- A reply while the store does not change. -/
def ScanReply.ofStore (store : Store) (reply : ℕ × List (List UInt8)) :
    ScanReply :=
  ⟨reply.1, reply.2.map fun key => store (cString key)⟩

theorem saveValues_map (store : Store) (keys : List (List UInt8))
    (table : ScoreTable Date) :
    saveValues clock (keys.map fun key => store (cString key)) table =
      saveKeys clock store keys table := by
  induction keys generalizing table with
  | nil => rfl
  | cons key keys ih =>
      rw [List.map_cons, saveValues, saveKeys]
      rcases readScore (store (cString key)) with _ | _ | data
      · rfl
      · exact ih table
      · exact ih _

/-- The loop is that of `scoreDataSave`. -/
theorem table_scanLoop (store : Store) (cursor : ℤ)
    (replies : List (ℕ × List (List UInt8))) (table : ScoreTable Date) :
    (scanLoop clock cursor (replies.map (.ofStore store)) table).2.table =
      scoreDataSave clock store replies table := by
  induction replies generalizing cursor table with
  | nil => rfl
  | cons reply replies ih =>
      rw [List.map_cons, scanLoop, scoreDataSave, ScanReply.ofStore,
        ← saveValues_map]
      cases stoi reply.1 with
      | none => rfl
      | some next =>
          rw [Option.bind_some]
          cases saveValues clock _ table with
          | none => rfl
          | some table =>
              rw [Option.bind_some]
              by_cases hzero : next = 0
              · simp only [if_pos hzero]
                rfl
              · simp only [if_neg hzero]
                exact ih next table

/-- The cursors that are returned before a zero. -/
def nextCursors (replies : List ScanReply) : List ℕ :=
  (replies.map ScanReply.cursor).takeWhile (· ≠ 0)

/-- The end that the cursors call for. -/
def ScanEnd.IsDue (cursors : List ℕ) : ScanEnd Date → Prop
  | saved _ => 0 ∈ cursors
  | scanFailed _ => 0 ∉ cursors
  | thrown => False

/-- From a cursor on, every `SCAN` has the cursor that was returned last, and
the loop ends at the first zero, or else at the `SCAN` that fails. -/
structure FollowsCursors (clock : Clock Date) (cursor : ℤ)
    (replies : List ScanReply) (table : ScoreTable Date) : Prop where
  commands : (scanLoop clock cursor replies table).1 =
    scanCommand cursor ::
      (nextCursors replies).map fun next : ℕ => scanCommand next
  isDue : (scanLoop clock cursor replies table).2.IsDue
    (replies.map ScanReply.cursor)

/-- The answers are for keys of the score cache, at times when only this program
had written to Redis. -/
def ScanReply.Answered (reply : ScanReply) : Prop :=
  ∀ value ∈ reply.values, ∃ store key,
    Written store ∧ IsScoreKey key ∧ value = store (cString key)

/-- Whatever this program left under the keys can be read. -/
theorem ScanReply.Answered.readScore {reply : ScanReply} (h : reply.Answered)
    {value : Option (List UInt8)} (hvalue : value ∈ reply.values) :
    ∃ data, readScore value = some data := by
  obtain ⟨store, key, hwritten, hkey, rfl⟩ := h value hvalue
  cases hstore : store (cString key) with
  | none => exact ⟨none, rfl⟩
  | some text =>
      obtain ⟨data, hread, -⟩ :=
        hwritten.readable.score _ text hstore (isScoreKey_cString hkey)
      exact ⟨some data, hread⟩

theorem exists_saveValues {values : List (Option (List UInt8))}
    (h : ∀ value ∈ values, ∃ data, readScore value = some data)
    (table : ScoreTable Date) :
    ∃ table', saveValues clock values table = some table' := by
  induction values generalizing table with
  | nil => exact ⟨table, rfl⟩
  | cons value values ih =>
      obtain ⟨⟨data, hdata⟩, hrest⟩ := List.forall_mem_cons.mp h
      cases data with
      | none =>
          obtain ⟨table', hsave⟩ := ih hrest table
          exact ⟨table', by rw [saveValues, hdata]; exact hsave⟩
      | some data =>
          obtain ⟨table', hsave⟩ := ih hrest (mergeScore clock data table)
          exact ⟨table', by rw [saveValues, hdata]; exact hsave⟩

theorem followsCursors_nil (cursor : ℤ) (table : ScoreTable Date) :
    FollowsCursors clock cursor [] table :=
  ⟨rfl, List.not_mem_nil⟩

/-- A zero ends the loop. -/
theorem followsCursors_of_zero {reply : ScanReply} {replies : List ScanReply}
    (hzero : reply.cursor = 0) {table table' : ScoreTable Date}
    (hsave : saveValues clock reply.values table = some table') (cursor : ℤ) :
    FollowsCursors clock cursor (reply :: replies) table := by
  have hloop : scanLoop clock cursor (reply :: replies) table =
      ([scanCommand cursor], .saved table') := by
    rw [scanLoop, hzero]
    simp only [stoi, hsave]
    rfl
  constructor
  · simp [hloop, nextCursors, hzero]
  · simp [hloop, ScanEnd.IsDue, hzero]

/-- Any other cursor that is an `int` is followed. -/
theorem followsCursors_cons_iff {reply : ScanReply}
    {replies : List ScanReply} (hne : reply.cursor ≠ 0)
    (hlt : reply.cursor < 2 ^ 31) {table table' : ScoreTable Date}
    (hsave : saveValues clock reply.values table = some table') (cursor : ℤ) :
    FollowsCursors clock cursor (reply :: replies) table ↔
      FollowsCursors clock reply.cursor replies table' := by
  have hloop : scanLoop clock cursor (reply :: replies) table =
      (scanCommand cursor :: (scanLoop clock reply.cursor replies table').1,
        (scanLoop clock reply.cursor replies table').2) := by
    have hne' : (reply.cursor : ℤ) ≠ 0 := by simpa using hne
    rw [scanLoop, stoi, if_pos hlt]
    simp only [hsave, if_neg hne']
  have hdue (ending : ScanEnd Date) :
      ending.IsDue ((reply :: replies).map ScanReply.cursor) ↔
        ending.IsDue (replies.map ScanReply.cursor) := by
    cases ending <;> simp [ScanEnd.IsDue, hne.symm]
  have hcursors : nextCursors (reply :: replies) =
      reply.cursor :: nextCursors replies := by
    simp [nextCursors, hne]
  constructor
  · rintro ⟨hcommands, hend⟩
    rw [hloop, hcursors] at hcommands
    rw [hloop, hdue] at hend
    exact ⟨(List.cons.inj hcommands).2, hend⟩
  · rintro ⟨hcommands, hend⟩
    constructor
    · rw [hloop, hcursors, List.map_cons, hcommands]
    · rw [hloop, hdue]
      exact hend

/-- At a cursor that is no `int` the loop throws. -/
theorem not_followsCursors {reply : ScanReply} {replies : List ScanReply}
    (h : ¬ reply.cursor < 2 ^ 31) (cursor : ℤ) (table : ScoreTable Date) :
    ¬ FollowsCursors clock cursor (reply :: replies) table := by
  rintro ⟨-, hend⟩
  rw [scanLoop, stoi, if_neg h] at hend
  exact hend

/-- The loop follows the cursors just when they fit an `int`. -/
theorem followsCursors_iff (clock : Clock Date) (cursor : ℤ)
    {replies : List ScanReply}
    (hreplies : ∀ reply ∈ replies, reply.Answered) (table : ScoreTable Date) :
    FollowsCursors clock cursor replies table ↔
      ∀ next ∈ nextCursors replies, next < 2 ^ 31 := by
  induction replies generalizing cursor table with
  | nil =>
      exact iff_of_true (followsCursors_nil cursor table)
        (List.forall_mem_nil _)
  | cons reply replies ih =>
      obtain ⟨hreply, hrest⟩ := List.forall_mem_cons.mp hreplies
      obtain ⟨table', hsave⟩ :
          ∃ table', saveValues clock reply.values table = some table' :=
        exists_saveValues (fun _ => hreply.readScore) table
      by_cases hzero : reply.cursor = 0
      · refine iff_of_true (followsCursors_of_zero hzero hsave cursor) ?_
        simp [nextCursors, hzero]
      have hcursors : nextCursors (reply :: replies) =
          reply.cursor :: nextCursors replies := by
        simp [nextCursors, hzero]
      rw [hcursors, List.forall_mem_cons]
      by_cases hlt : reply.cursor < 2 ^ 31
      · rw [followsCursors_cons_iff hzero hlt hsave, ih _ hrest,
          and_iff_right hlt]
      · exact iff_of_false (not_followsCursors hlt cursor table)
          fun h => hlt h.1

end Cursors

/-- One more `SCAN` is needed, and the key that it returns has expired. -/
theorem followsCursors_seventeen :
    FollowsCursors utcClock 0 [⟨17, []⟩, ⟨0, [none]⟩] twoPlayers := by
  have hreplies : ∀ reply ∈ ([⟨17, []⟩, ⟨0, [none]⟩] : List ScanReply),
      reply.Answered := by
    have hexpired : (⟨0, [none]⟩ : ScanReply).Answered := by
      intro value hvalue
      exact ⟨fun _ => none, scoreKey (ascii "A"), .empty,
        isScoreKey_scoreKey _, List.mem_singleton.mp hvalue⟩
    simpa [ScanReply.Answered] using hexpired
  exact (followsCursors_iff utcClock 0 hreplies twoPlayers).mpr (by decide)

/-- Redis may return cursors that are no `int`. -/
theorem not_followsCursors_large :
    ¬ ∀ replies : List ScanReply,
      (∀ reply ∈ replies, reply.cursor < 2 ^ 64 ∧ reply.Answered) →
        FollowsCursors utcClock 0 replies twoPlayers := by
  intro hall
  have hreplies : ∀ reply ∈ ([⟨2 ^ 31, []⟩, ⟨0, []⟩] : List ScanReply),
      reply.cursor < 2 ^ 64 ∧ reply.Answered := by
    simp [ScanReply.Answered]
  exact not_followsCursors (by decide) 0 twoPlayers (hall _ hreplies)

end RankingServer.Business
