import RankingServer.Business.Contents
import RankingServer.Protocol.RoundTrip

/-!
# Acknowledged scores

`Response_SaveScore` answers with feedback once `SetCachedData` has returned,
which does not look at the reply to its `SET`, and `ScoreDataSave` meets the
width of the column `player_id` only when it merges the entry.  The date of the
entry is a sum that may not fit a `std::time_t`.
-/

namespace RankingServer.Business

open Flatbuffers Protocol

/-- How a `SET` ends: with `OK`, with an error reply, or without a reply because
the connection failed, before or after Redis had executed the command. -/
inductive SetOutcome
  | ok
  | error
  | null (executed : Bool)
deriving DecidableEq, Repr

namespace SetOutcome

def executed : SetOutcome → Bool
  | ok => true
  | error => false
  | null executed => executed

/-- The entries after the commands that a request leads to. -/
def after (outcome : SetOutcome) (stored : List SetCommand) (store : Store) :
    Store :=
  if outcome.executed then setAll stored store else store

end SetOutcome

/-- The message tells its reader the player and the feedback. -/
def Answers (body playerId : List UInt8) (feedback : Bool) : Prop :=
  ∃ data, getRoot body = .ok data ∧
    RESPONSE_SAVE_SCORE.player_id body data = .ok playerId ∧
    RESPONSE_SAVE_SCORE.feedback body data = .ok (boolField feedback)

/-- `ScoreDataSave` reads the entry of the player and merges this score into
whatever table there is. -/
def Mergeable {Date : Type*} (clock : Clock Date) (store : Store)
    (data : Data_Score) : Prop :=
  ∀ table, ∃ table',
    saveKeys clock store [scoreKey data.mPlayerId] table = some table' ∧
      table'.lookup data.mPlayerId = some (.ofData clock data)

/-- A save request is answered, with feedback only if afterwards the cache holds
the score and the date for the player and the entry can be merged. -/
def SoundAcknowledgement {Date : Type*} (clock : Clock Date)
    (outcome : SetOutcome) (store : Store) (playerId : List UInt8)
    (score lastUpdate : ℤ) : Prop :=
  ∀ cached socketId, ∃ stored body feedback,
    Hub.handle cached socketId (.saveScore playerId score lastUpdate) =
        .responded stored socketId MessageContent_RESPONSE_SAVE_SCORE body ∧
      Answers body playerId feedback ∧
      (feedback = true →
        outcome.after stored store (scoreKey playerId) =
            Json.dump (Data_Score.toJson playerId score
              (lastUpdate + 9 * 3600)) ∧
          Mergeable clock (outcome.after stored store)
            ⟨playerId, score, lastUpdate + 9 * 3600⟩)

theorem boolField_injective : Function.Injective boolField := by
  intro feedback feedback' h
  revert h
  cases feedback <;> cases feedback' <;> decide

/-- The response to a save request has feedback. -/
theorem answers_responseSaveScore {playerId : List UInt8}
    (hlen : playerId.length < 2 ^ 30) {feedback : Bool} :
    Answers (responseSaveScore playerId true) playerId feedback ↔
      feedback = true := by
  obtain ⟨data, hroot, hplayer, hfeedback⟩ :=
    responseSaveScore_reads hlen true []
  rw [List.append_nil] at hroot hplayer hfeedback
  constructor
  · rintro ⟨data', hroot', -, hfeedback'⟩
    obtain rfl := Except.ok.inj (hroot.symm.trans hroot')
    exact (boolField_injective
      (Except.ok.inj (hfeedback.symm.trans hfeedback'))).symm
  · rintro rfl
    exact ⟨data, hroot, hplayer, hfeedback⟩

/-- The text of a record tells its date. -/
theorem date_of_dump {playerId text : List UInt8} {score date date' : ℤ}
    (h : Json.dump (Data_Score.toJson playerId score date) = some text)
    (h' : Json.dump (Data_Score.toJson playerId score date') = some text) :
    date = date' := by
  have hparse := (Json.parse_dump h).symm.trans (Json.parse_dump h')
  have hmembers := Option.some.inj hparse
  simpa [Data_Score.toJson] using hmembers

section

variable {Date : Type*} {clock : Clock Date} {outcome : SetOutcome}
  {store : Store} {playerId : List UInt8} {score lastUpdate : ℤ}

/-- A cached entry can be merged just when its id fits the column. -/
theorem mergeable_iff {data : Data_Score} {text : List UInt8}
    (hid : 0 ∉ data.mPlayerId) (hscore : IsInt data.mScore)
    (hstore : store (scoreKey data.mPlayerId) = some text)
    (htext : Json.dump (Data_Score.toJson data.mPlayerId data.mScore
      data.mLastUpdate) = some text) :
    Mergeable clock store data ↔
      data.mPlayerId.length ≤ PLAYER_ID_LENGTH := by
  have hread : readScore (some text) = some (some data) := by
    rw [readScore_dump htext, toInt_of_isInt hscore]
  have hsave (table : ScoreTable Date) :
      saveKeys clock store [scoreKey data.mPlayerId] table =
        some (mergeScore clock data table) := by
    rw [saveKeys, cString_of_notMem (zero_notMem_scoreKey hid), hstore, hread]
    rfl
  constructor
  · intro h
    by_contra hlong
    obtain ⟨table', hsave', hlookup⟩ := h (KeyedTable.empty _)
    obtain rfl := Option.some.inj ((hsave _).symm.trans hsave')
    rw [mergeScore, cString_of_notMem hid, if_neg hlong] at hlookup
    cases hlookup
  · intro hfits table
    refine ⟨_, hsave table, ?_⟩
    rw [mergeScore, cString_of_notMem hid, if_pos hfits,
      KeyedTable.lookup_upsert]
    exact Function.update_self _ _ _

/-- The entry of the player after the `SET`. -/
theorem after_setCachedData (hid : 0 ∉ playerId) {text : List UInt8} {date : ℤ}
    (htext : Json.dump (Data_Score.toJson playerId score date) = some text) :
    outcome.after [setCachedData (ascii "Score") playerId text 60] store
        (scoreKey playerId) =
      if outcome.executed then some text else store (scoreKey playerId) := by
  rw [SetOutcome.after]
  split
  · rw [setAll_setCachedData htext, cString_of_notMem hid]
    exact Function.update_self _ _ _
  · rfl

/-- The answer always has feedback, so both conditions have to hold. -/
theorem soundAcknowledgement_iff_cached (hlen : playerId.length < 2 ^ 30)
    {text : List UInt8}
    (htext : Json.dump (Data_Score.toJson playerId score
      (Hub.koreaTime lastUpdate)) = some text) :
    SoundAcknowledgement clock outcome store playerId score lastUpdate ↔
      outcome.after [setCachedData (ascii "Score") playerId text 60] store
          (scoreKey playerId) =
          Json.dump (Data_Score.toJson playerId score
            (lastUpdate + 9 * 3600)) ∧
        Mergeable clock
          (outcome.after [setCachedData (ascii "Score") playerId text 60] store)
          ⟨playerId, score, lastUpdate + 9 * 3600⟩ := by
  constructor
  · intro h
    obtain ⟨stored, body, feedback, hhandle, hanswers, hsound⟩ := h none 0
    rw [Hub.handle_saveScore htext] at hhandle
    cases hhandle
    exact hsound ((answers_responseSaveScore hlen).mp hanswers)
  · intro h cached socketId
    exact ⟨_, _, true, Hub.handle_saveScore htext cached socketId,
      (answers_responseSaveScore hlen).mpr rfl, fun _ => h⟩

/-- The cache holds the entry if the `SET` was executed and the date is not too
late, or if it was not executed and the cache held the same entry before. -/
theorem after_eq_dump_iff (hid : 0 ∉ playerId) (htime : IsTime lastUpdate)
    {text : List UInt8}
    (htext : Json.dump (Data_Score.toJson playerId score
      (Hub.koreaTime lastUpdate)) = some text) :
    outcome.after [setCachedData (ascii "Score") playerId text 60] store
        (scoreKey playerId) =
        Json.dump (Data_Score.toJson playerId score (lastUpdate + 9 * 3600)) ↔
      outcome.executed = true ∧ lastUpdate + 9 * 3600 < 2 ^ 63 ∨
        outcome.executed = false ∧ store (scoreKey playerId) =
          Json.dump (Data_Score.toJson playerId score
            (lastUpdate + 9 * 3600)) := by
  rw [after_setCachedData hid htext]
  cases outcome.executed with
  | false => simp
  | true =>
      simp only [if_true, true_and, Bool.true_eq_false, false_and, or_false]
      constructor
      · intro hsame
        have hdate := date_of_dump htext hsame.symm
        have hlt : Hub.koreaTime lastUpdate < 2 ^ 63 :=
          Int.bmod_lt (by decide)
        rwa [hdate] at hlt
      · intro hlt
        have hmoved : IsTime (lastUpdate + 9 * 3600) := by
          obtain ⟨hlow, -⟩ := htime
          exact ⟨by omega, hlt⟩
        rw [← Hub.koreaTime_of_isTime hmoved, htext]

/-- An acknowledgement is sound just when the id fits the column, and the cache
has got the entry with a date that does not overflow, or has had the entry
before. -/
theorem soundAcknowledgement_iff (clock : Clock Date) (outcome : SetOutcome)
    (store : Store) (hid : 0 ∉ playerId)
    (hutf8 : Json.wellFormed playerId = true)
    (hlen : playerId.length ≤ Network.BUFFER_SIZE) (hscore : IsInt score)
    (htime : IsTime lastUpdate) :
    SoundAcknowledgement clock outcome store playerId score lastUpdate ↔
      playerId.length ≤ PLAYER_ID_LENGTH ∧
        (outcome.executed = true ∧ lastUpdate + 9 * 3600 < 2 ^ 63 ∨
          outcome.executed = false ∧ store (scoreKey playerId) =
            Json.dump (Data_Score.toJson playerId score
              (lastUpdate + 9 * 3600))) := by
  have hshort : playerId.length < 2 ^ 30 := hlen.trans_lt (by decide)
  obtain ⟨text, htext⟩ :=
    Data_Score.exists_dump_toJson hutf8 score (Hub.koreaTime lastUpdate)
  obtain ⟨text', htext'⟩ :=
    Data_Score.exists_dump_toJson hutf8 score (lastUpdate + 9 * 3600)
  rw [soundAcknowledgement_iff_cached hshort htext,
    ← after_eq_dump_iff hid htime htext, and_comm (a := playerId.length ≤ _)]
  refine and_congr_right fun hafter => ?_
  exact @mergeable_iff _ clock _
    ⟨playerId, score, lastUpdate + 9 * 3600⟩ text' hid hscore
    (hafter.trans htext') htext'

end

theorem soundAcknowledgement_short :
    SoundAcknowledgement utcClock .ok (fun _ => none) (ascii "A") 100 0 :=
  (soundAcknowledgement_iff utcClock .ok (fun _ => none) (by decide)
    (by decide) (by decide) (by decide) (by decide)).mpr
    ⟨by decide, .inl ⟨rfl, by decide⟩⟩

/-- The client is told that a score is safe whose player does not fit the
table. -/
theorem not_soundAcknowledgement_longId :
    ¬ ∀ (outcome : SetOutcome) (store : Store) (playerId : List UInt8)
      (score lastUpdate : ℤ), 0 ∉ playerId →
        Json.wellFormed playerId = true →
          playerId.length ≤ Network.BUFFER_SIZE → IsInt score →
            IsTime lastUpdate →
              SoundAcknowledgement utcClock outcome store playerId score
                lastUpdate := by
  intro hall
  have hid : 0 ∉ ascii "ABCDEFGHIJKLMNOPQ" := by decide
  have hutf8 : Json.wellFormed (ascii "ABCDEFGHIJKLMNOPQ") = true := by decide
  have hsound := hall .ok (fun _ => none) _ 100 0 hid hutf8 (by decide)
    (by decide) (by decide)
  have hdate : Hub.koreaTime 0 = 0 + 9 * 3600 :=
    Hub.koreaTime_of_isTime (by decide)
  obtain ⟨text, htext⟩ :=
    Data_Score.exists_dump_toJson hutf8 100 (0 + 9 * 3600)
  obtain ⟨hafter, hmergeable⟩ :=
    (soundAcknowledgement_iff_cached (by decide) (hdate ▸ htext)).mp hsound
  have hfits := (@mergeable_iff _ utcClock _
    ⟨ascii "ABCDEFGHIJKLMNOPQ", 100, 0 + 9 * 3600⟩ text hid (by decide)
    (hafter.trans htext) htext).mp hmergeable
  revert hfits
  decide

end RankingServer.Business
