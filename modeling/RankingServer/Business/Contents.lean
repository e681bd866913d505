import RankingServer.Business.Ranking

/-!
# What the program leaves in Redis

The entries of the two caches are written by the two loads and by save requests,
and leave Redis when they expire.  Whatever the order, an entry can be read back
by the functions that look for it, and a score is filed under its own player, as
far as a C string can tell.
-/

namespace RankingServer.Business

/-- What Redis can hold when only this program writes to it, and writes into an
empty Redis. -/
inductive Written : Store → Prop
  | empty : Written fun _ => none
  | expired {store : Store} (key : List UInt8) :
      Written store → Written (Function.update store key none)
  | scoreDataLoad {Date : Type} {clock : Clock Date}
      {rows : List (ScoreRow Date)} {store store' : Store} :
      Written store → scoreDataLoad clock rows store = some store' →
        Written store'
  | rankingDataLoad {rows : List RankingRow} {store store' : Store} :
      Written store → rankingDataLoad rows store = some store' →
        Written store'
  | handled {store : Store} {cached : Option (List UInt8)} {socketId : ℕ}
      {request : Request} {stored : List SetCommand}
      {client contentsType : ℕ} {body : List UInt8} :
      Written store →
        Hub.handle cached socketId request =
          .responded stored client contentsType body →
        Written (setAll stored store)

/-- The entries of both caches can be read. -/
structure Readable (store : Store) : Prop where
  score : ReadableScores store
  ranking : ∀ playerId text,
    store (cString (rankingKey playerId)) = some text →
      ∃ data, readRanking (some text) = some data

/-- The command that stores a score. -/
theorem setCachedData_dump {playerId text : List UInt8} {score date : ℤ}
    (htext : Json.dump (Data_Score.toJson playerId score date) = some text)
    (ttl : ℕ) :
    setCachedData (ascii "Score") playerId text ttl =
      ⟨scoreKey (cString playerId), text, ttl⟩ := by
  rw [setCachedData, cString_of_notMem (Json.zero_notMem_dump htext),
    ← cString_scoreKey]
  rfl

theorem readScore_dump {playerId text : List UInt8} {score date : ℤ}
    (htext : Json.dump (Data_Score.toJson playerId score date) = some text) :
    readScore (some text) = some (some ⟨playerId, toInt score, date⟩) := by
  simp only [readScore, cString_of_notMem (Json.zero_notMem_dump htext),
    Json.parse_dump htext, Option.bind_some]
  rfl

theorem setAll_setCachedData {playerId text : List UInt8} {score date : ℤ}
    (htext : Json.dump (Data_Score.toJson playerId score date) = some text)
    (store : Store) :
    setAll [setCachedData (ascii "Score") playerId text 60] store =
      Function.update store (scoreKey (cString playerId)) (some text) := by
  rw [setCachedData_dump htext]
  rfl

/-- How a save request is answered. -/
theorem Hub.handle_saveScore {playerId text : List UInt8}
    {score lastUpdate : ℤ}
    (htext : Json.dump (Data_Score.toJson playerId score
      (koreaTime lastUpdate)) = some text)
    (cached : Option (List UInt8)) (socketId : ℕ) :
    handle cached socketId (.saveScore playerId score lastUpdate) =
      .responded [setCachedData (ascii "Score") playerId text 60] socketId
        Protocol.MessageContent_RESPONSE_SAVE_SCORE
        (Protocol.responseSaveScore playerId true) := by
  rw [handle, response_SaveScore, htext]

theorem not_isScoreKey_rankingKey (playerId : List UInt8) :
    ¬ IsScoreKey (cString (rankingKey playerId)) := by
  rintro ⟨rest, hrest⟩
  rw [← scoreKey_eq] at hrest
  exact scoreKey_ne_rankingKey rest playerId hrest

namespace Readable

variable {store : Store}

theorem expired (h : Readable store) (key : List UInt8) :
    Readable (Function.update store key none) where
  score := by
    intro key' text hkey
    rw [Function.update_apply] at hkey
    split at hkey
    · cases hkey
    · exact h.score key' text hkey
  ranking := by
    intro playerId text hkey
    rw [Function.update_apply] at hkey
    split at hkey
    · cases hkey
    · exact h.ranking playerId text hkey

theorem setScore (h : Readable store) {playerId text : List UInt8}
    {score date : ℤ}
    (htext : Json.dump (Data_Score.toJson playerId score date) = some text)
    (ttl : ℕ) :
    Readable ((Command.set (setCachedData (ascii "Score") playerId text
      ttl)).execute store) := by
  rw [setCachedData_dump htext, Command.execute]
  constructor
  · intro key value hkey hscore
    rw [Function.update_apply] at hkey
    split at hkey
    · next heq =>
        obtain rfl := Option.some.inj hkey
        exact ⟨_, readScore_dump htext, heq⟩
    · exact h.score key value hkey hscore
  · intro player value hkey
    rw [Function.update_of_ne (scoreKey_ne_rankingKey _ _).symm] at hkey
    exact h.ranking player value hkey

theorem setRanking (h : Readable store) {row : RankingRow}
    {command : SetCommand} (hcommand : row.setCommand = some command) :
    Readable ((Command.set command).execute store) := by
  have hkey := RankingRow.key_of_setCommand hcommand
  rw [Command.execute]
  constructor
  · intro key value hvalue hscore
    rw [Function.update_apply] at hvalue
    split at hvalue
    · next heq =>
        rw [heq, hkey] at hscore
        exact absurd hscore (not_isScoreKey_rankingKey _)
    · exact h.score key value hvalue hscore
  · intro player value hvalue
    rw [Function.update_apply] at hvalue
    split at hvalue
    · obtain rfl := Option.some.inj hvalue
      exact ⟨_, RankingRow.readRanking_of_setCommand hcommand⟩
    · exact h.ranking player value hvalue

theorem scoreDataLoad {Date : Type*} {clock : Clock Date}
    {rows : List (ScoreRow Date)} {store' : Store} (h : Readable store)
    (hload : scoreDataLoad clock rows store = some store') :
    Readable store' := by
  induction rows generalizing store with
  | nil => exact Option.some.inj hload ▸ h
  | cons row rows ih =>
      rw [Business.scoreDataLoad] at hload
      split at hload
      · cases hload
      · next htext => exact ih (h.setScore htext 600) hload

theorem rankingDataLoad {rows : List RankingRow} {store' : Store}
    (h : Readable store) (hload : rankingDataLoad rows store = some store') :
    Readable store' := by
  induction rows generalizing store with
  | nil => exact Option.some.inj hload ▸ h
  | cons row rows ih =>
      rw [Business.rankingDataLoad, Option.bind_eq_some_iff] at hload
      obtain ⟨command, hcommand, hload⟩ := hload
      exact ih (h.setRanking hcommand) hload

end Readable

/-- Only a save request stores anything, one entry of the score cache. -/
theorem Hub.stored_of_handle {cached : Option (List UInt8)} {socketId : ℕ}
    {request : Request} {stored : List SetCommand} {client contentsType : ℕ}
    {body : List UInt8}
    (h : Hub.handle cached socketId request =
      .responded stored client contentsType body) :
    stored = [] ∨
      ∃ playerId score lastUpdate text,
        request = .saveScore playerId score lastUpdate ∧
          Json.dump (Data_Score.toJson playerId score
            (koreaTime lastUpdate)) = some text ∧
          stored = [setCachedData (ascii "Score") playerId text 60] := by
  cases request with
  | playerRanking playerId =>
      rw [handle] at h
      rcases response_PlayerRanking_cases cached socketId playerId with
        hthrown | ⟨body', hresponded⟩
      · rw [hthrown] at h
        cases h
      · rw [hresponded] at h
        cases h
        exact Or.inl rfl
  | saveScore playerId score lastUpdate =>
      rw [handle] at h
      rcases response_SaveScore_cases socketId playerId score
          (koreaTime lastUpdate) with
        ⟨-, hthrown⟩ | ⟨text, htext, hresponded⟩
      · rw [hthrown] at h
        cases h
      · rw [hresponded] at h
        cases h
        exact Or.inr ⟨playerId, score, lastUpdate, text, rfl, htext, rfl⟩
  | contentsTypeError => cases h

/-- A save request for an id that fits the table leaves a score cache a score
cache. -/
theorem ScoreCache.saveScore {store : Store} (hcache : ScoreCache store)
    {playerId : List UInt8} {score lastUpdate : ℤ} (hid : 0 ∉ playerId)
    (hfits : playerId.length ≤ PLAYER_ID_LENGTH) (hscore : IsInt score)
    {cached : Option (List UInt8)} {socketId : ℕ} {stored : List SetCommand}
    {client contentsType : ℕ} {body : List UInt8}
    (hhandle : Hub.handle cached socketId
      (.saveScore playerId score lastUpdate) =
        .responded stored client contentsType body) :
    ScoreCache (setAll stored store) := by
  rcases Hub.stored_of_handle hhandle with rfl | ⟨_, _, _, text, hrequest,
    htext, rfl⟩
  · exact hcache
  · cases hrequest
    rw [setAll_setCachedData htext, cString_of_notMem hid]
    intro key value hvalue hkey
    rw [Function.update_apply] at hvalue
    split at hvalue
    · next heq =>
        obtain rfl := Option.some.inj hvalue
        exact ⟨⟨playerId, score, Hub.koreaTime lastUpdate⟩, heq, htext, hid,
          hscore, hfits⟩
    · exact hcache key value hvalue hkey

/-- What the program writes it can read. -/
theorem Written.readable {store : Store} (h : Written store) :
    Readable store := by
  induction h with
  | empty => exact ⟨(by simp [ReadableScores]), (by simp)⟩
  | expired key _ ih => exact ih.expired key
  | scoreDataLoad _ hload ih => exact ih.scoreDataLoad hload
  | rankingDataLoad _ hload ih => exact ih.rankingDataLoad hload
  | handled _ hhandle ih =>
      rcases Hub.stored_of_handle hhandle with rfl | ⟨_, _, _, _, _, htext, rfl⟩
      · exact ih
      · exact ih.setScore htext 60

end RankingServer.Business
