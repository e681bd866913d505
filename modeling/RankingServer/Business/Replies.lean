import RankingServer.Business.Contents
import RankingServer.Business.Service

/-!
# Replies to well-formed requests

Which messages are taken for requests, and what becomes of a request whose
fields lie inside its body.  The handler may fail to reply in two ways: `dump`
throws for an id that is not UTF-8, and the body of a ranking response can be
longer than the buffer although the request was not.
-/

namespace RankingServer.Business

open Flatbuffers Network Protocol

/-! ## Contents types -/

namespace Hub

/-- A message is handled as a ranking request: `Response_PlayerRanking` gets the
player id that is found in the body. -/
def asPlayerRanking (cached : Option (List UInt8)) (socketId : ℕ)
    (bodyBuffer : List UInt8) : Outcome :=
  match (getRoot bodyBuffer).bind fun data =>
      REQUEST_PLAYER_RANKING.player_id bodyBuffer data with
  | .error fault => .faulted fault
  | .ok playerId => response_PlayerRanking cached socketId playerId

/-- A message is handled as a save request: `Response_SaveScore` is called with
the fields that are found in the body, and the date in UTC+9. -/
def asSaveScore (socketId : ℕ) (bodyBuffer : List UInt8) : Outcome :=
  match (getRoot bodyBuffer).bind fun data =>
      (REQUEST_SAVE_SCORE.last_update bodyBuffer data).bind fun lastUpdate =>
      (REQUEST_SAVE_SCORE.player_id bodyBuffer data).bind fun playerId =>
      (REQUEST_SAVE_SCORE.score bodyBuffer data).bind fun score =>
      .ok (playerId, score, lastUpdate) with
  | .error fault => .faulted fault
  | .ok (playerId, score, lastUpdate) =>
      response_SaveScore socketId playerId score (koreaTime lastUpdate)

/-- All messages of the contents type are handled as ranking requests. -/
def HandlesPlayerRanking (contentsType : ℕ) : Prop :=
  ∀ cached socketId bodyBuffer,
    send cached socketId contentsType bodyBuffer =
      asPlayerRanking cached socketId bodyBuffer

/-- All messages of the contents type are handled as save requests. -/
def HandlesSaveScore (contentsType : ℕ) : Prop :=
  ∀ cached socketId bodyBuffer,
    send cached socketId contentsType bodyBuffer =
      asSaveScore socketId bodyBuffer

/-- The handling of messages of the contents type depends on all of its
bits. -/
structure Dispatched (contentsType : ℕ) : Prop where
  playerRanking : HandlesPlayerRanking contentsType ↔
    contentsType = MessageContent_REQUEST_PLAYER_RANKING
  saveScore : HandlesSaveScore contentsType ↔
    contentsType = MessageContent_REQUEST_SAVE_SCORE
  others : contentsType ≠ MessageContent_REQUEST_PLAYER_RANKING →
    contentsType ≠ MessageContent_REQUEST_SAVE_SCORE →
      ∀ cached socketId bodyBuffer,
        send cached socketId contentsType bodyBuffer = .returned

section

variable {contentsType : ℕ}

theorem handlesPlayerRanking
    (h : messageContent contentsType = MessageContent_REQUEST_PLAYER_RANKING) :
    HandlesPlayerRanking contentsType := by
  intro cached socketId bodyBuffer
  rw [send, decode, if_pos h, asPlayerRanking]
  cases getRoot bodyBuffer with
  | error fault => rfl
  | ok data =>
      dsimp only [Except.bind]
      cases REQUEST_PLAYER_RANKING.player_id bodyBuffer data <;> rfl

theorem handlesSaveScore
    (h : messageContent contentsType = MessageContent_REQUEST_SAVE_SCORE) :
    HandlesSaveScore contentsType := by
  intro cached socketId bodyBuffer
  have hother :
      messageContent contentsType ≠ MessageContent_REQUEST_PLAYER_RANKING := by
    rw [h]
    decide
  rw [send, decode, if_neg hother, if_pos h, asSaveScore]
  cases getRoot bodyBuffer with
  | error fault => rfl
  | ok data =>
      dsimp only [Except.bind]
      cases REQUEST_SAVE_SCORE.last_update bodyBuffer data with
      | error fault => rfl
      | ok lastUpdate =>
          dsimp only [Except.bind]
          cases REQUEST_SAVE_SCORE.player_id bodyBuffer data with
          | error fault => rfl
          | ok playerId =>
              dsimp only [Except.bind]
              cases REQUEST_SAVE_SCORE.score bodyBuffer data <;> rfl

theorem send_of_others
    (hranking :
      messageContent contentsType ≠ MessageContent_REQUEST_PLAYER_RANKING)
    (hsave : messageContent contentsType ≠ MessageContent_REQUEST_SAVE_SCORE)
    (cached : Option (List UInt8)) (socketId : ℕ) (bodyBuffer : List UInt8) :
    send cached socketId contentsType bodyBuffer = .returned := by
  rw [send, decode, if_neg hranking, if_neg hsave]
  rfl

/-- An empty body tells requests from other messages, and the request of a
player without a score the two requests from each other. -/
theorem asPlayerRanking_ne :
    asPlayerRanking none 1 [] ≠ .returned ∧ asSaveScore 1 [] ≠ .returned ∧
      asPlayerRanking none 1 Framing.rankingRequest.body ≠
        asSaveScore 1 Framing.rankingRequest.body := by
  decide +kernel

/-- A contents type is handled as a ranking request just when its low byte is
that of the request. -/
theorem handlesPlayerRanking_iff :
    HandlesPlayerRanking contentsType ↔
      messageContent contentsType = MessageContent_REQUEST_PLAYER_RANKING := by
  refine ⟨fun h => ?_, handlesPlayerRanking⟩
  obtain ⟨hempty, -, hbody⟩ := asPlayerRanking_ne
  by_contra hranking
  by_cases hsave :
      messageContent contentsType = MessageContent_REQUEST_SAVE_SCORE
  · exact hbody ((h none 1 _).symm.trans (handlesSaveScore hsave none 1 _))
  · exact hempty ((h none 1 _).symm.trans (send_of_others hranking hsave _ _ _))

theorem handlesSaveScore_iff :
    HandlesSaveScore contentsType ↔
      messageContent contentsType = MessageContent_REQUEST_SAVE_SCORE := by
  refine ⟨fun h => ?_, handlesSaveScore⟩
  obtain ⟨-, hempty, hbody⟩ := asPlayerRanking_ne
  by_contra hsave
  by_cases hranking :
      messageContent contentsType = MessageContent_REQUEST_PLAYER_RANKING
  · exact hbody
      ((handlesPlayerRanking hranking none 1 _).symm.trans (h none 1 _))
  · exact hempty ((h none 1 _).symm.trans (send_of_others hranking hsave _ _ _))

end

/-- All bits of the contents type matter just when those above the low byte are
zero, or the low byte is not that of a request. -/
theorem dispatched_iff (contentsType : ℕ) :
    Dispatched contentsType ↔
      messageContent contentsType = contentsType ∨
        (messageContent contentsType ≠ MessageContent_REQUEST_PLAYER_RANKING ∧
          messageContent contentsType ≠ MessageContent_REQUEST_SAVE_SCORE) := by
  constructor
  · intro h
    have hranking := h.playerRanking
    have hsave := h.saveScore
    rw [handlesPlayerRanking_iff] at hranking
    rw [handlesSaveScore_iff] at hsave
    by_contra hlow
    rw [not_or, not_and_or, not_not, not_not] at hlow
    obtain ⟨hne, hlow | hlow⟩ := hlow
    · exact hne (hlow.trans (hranking.mp hlow).symm)
    · exact hne (hlow.trans (hsave.mp hlow).symm)
  · intro h
    have hsmall {type : ℕ} (hlow : messageContent contentsType = type)
        (htype : type = MessageContent_REQUEST_PLAYER_RANKING ∨
          type = MessageContent_REQUEST_SAVE_SCORE) : contentsType = type := by
      rcases h with h | ⟨hranking, hsave⟩
      · exact h.symm.trans hlow
      · rcases htype with rfl | rfl
        · exact absurd hlow hranking
        · exact absurd hlow hsave
    constructor
    · rw [handlesPlayerRanking_iff]
      refine ⟨fun hlow => hsmall hlow (Or.inl rfl), ?_⟩
      rintro rfl
      rfl
    · rw [handlesSaveScore_iff]
      refine ⟨fun hlow => hsmall hlow (Or.inr rfl), ?_⟩
      rintro rfl
      rfl
    · intro hranking hsave
      exact send_of_others (fun hlow => hranking (hsmall hlow (Or.inl rfl)))
        fun hlow => hsave (hsmall hlow (Or.inr rfl))

/-- Type 259 is taken for a ranking request. -/
theorem not_dispatched_259 :
    ¬ ∀ contentsType, contentsType < 2 ^ 32 → Dispatched contentsType := by
  intro hall
  have hhandled := (hall 259 (by decide)).playerRanking.mp
    (handlesPlayerRanking (by decide))
  revert hhandled
  decide

end Hub

/-! ## Exceptions -/

/-- The answer to the `GET` for the request, if it makes one. -/
def Request.reply (store : Store) : Request → Option (List UInt8)
  | playerRanking playerId => store (cString (rankingKey playerId))
  | saveScore _ _ _ | contentsTypeError => none

/-- The call returns, with or without a message. -/
def Outcome.Returns : Outcome → Prop
  | returned | responded _ _ _ _ => True
  | faulted _ | thrown => False

namespace Hub

/-- The response to a save request needs an id in UTF-8. -/
theorem response_SaveScore_returns_iff (socketId : ℕ) (playerID : List UInt8)
    (newScore unixUpdateDate : ℤ) :
    (response_SaveScore socketId playerID newScore unixUpdateDate).Returns ↔
      Json.wellFormed playerID = true := by
  rw [← Data_Score.dump_toJson_isSome_iff playerID newScore unixUpdateDate]
  rcases response_SaveScore_cases socketId playerID newScore
      unixUpdateDate with
    ⟨hdump, hthrown⟩ | ⟨text, hdump, hresponded⟩
  · simp [hthrown, hdump, Outcome.Returns]
  · simp [hresponded, hdump, Outcome.Returns]

/-- What the program has cached does not make it throw. -/
theorem response_PlayerRanking_returns {store : Store} (h : Readable store)
    (socketId : ℕ) (playerId : List UInt8) :
    (response_PlayerRanking (store (cString (rankingKey playerId))) socketId
      playerId).Returns := by
  cases hreply : store (cString (rankingKey playerId)) with
  | none => trivial
  | some text =>
      obtain ⟨data, hdata⟩ := h.ranking playerId text hreply
      rw [response_PlayerRanking_of_read hdata]
      trivial

/-- A decodable request is handled without an exception exactly if it is not a
save request for an id that is no UTF-8. -/
theorem send_returns_iff {store : Store} (hwritten : Written store)
    {requestType : ℕ} {bodyBuffer : List UInt8}
    (hdecodable : Decodable requestType bodyBuffer) (socketId : ℕ) :
    (send ((requestAt requestType bodyBuffer).reply store) socketId requestType
      bodyBuffer).Returns ↔
        ∀ playerId score lastUpdate,
          requestAt requestType bodyBuffer =
              .saveScore playerId score lastUpdate →
            Json.wellFormed playerId = true := by
  rw [send_of_decodable hdecodable]
  cases requestAt requestType bodyBuffer with
  | playerRanking playerId =>
      refine iff_of_true ?_ (by simp)
      exact response_PlayerRanking_returns hwritten.readable socketId playerId
  | saveScore playerId score lastUpdate =>
      refine (response_SaveScore_returns_iff socketId playerId score
        (koreaTime lastUpdate)).trans ⟨?_, fun h => h _ _ _ rfl⟩
      rintro hwellFormed _ _ _ ⟨⟩
      exact hwellFormed
  | contentsTypeError => exact iff_of_true trivial (by simp)

/-- The ranking request of player A meets an empty cache. -/
theorem send_returns_rankingRequest :
    (send none 1 3 Framing.rankingRequest.body).Returns := by
  have hdecodable : Decodable 3 Framing.rankingRequest.body := by
    decide +kernel
  have hrequest : requestAt 3 Framing.rankingRequest.body =
      .playerRanking (ascii "A") := by
    decide +kernel
  have hreturns := (send_returns_iff .empty hdecodable 1).mpr (by
    rw [hrequest]
    simp)
  rwa [hrequest] at hreturns

/-- A save request for the id 255 makes `dump` throw. -/
theorem not_send_returns_invalidRequest :
    ¬ ∀ store, Written store → ∀ socketId requestType bodyBuffer,
      Decodable requestType bodyBuffer →
        (send ((requestAt requestType bodyBuffer).reply store) socketId
          requestType bodyBuffer).Returns := by
  have hinvalid : ∃ bodyBuffer, Decodable 1 bodyBuffer ∧
      requestAt 1 bodyBuffer = .saveScore [255] 0 0 :=
    ⟨(Session.receivedData 1 invalidRequest).bodyBuffer, by decide +kernel⟩
  obtain ⟨bodyBuffer, hdecodable, hrequest⟩ := hinvalid
  intro hall
  have hsend := hall _ .empty 1 1 bodyBuffer hdecodable
  rw [send_of_decodable hdecodable, hrequest] at hsend
  have hreturns : (response_SaveScore 1 [255] 0 (koreaTime 0)).Returns := hsend
  rw [response_SaveScore_returns_iff] at hreturns
  revert hreturns
  decide

/-! ## Lengths -/

theorem length_rankingScalars (score ranking : ℤ) :
    (rankingScalars score ranking).length =
      4 * [score, ranking].countP (· ≠ 0) := by
  by_cases hscore : score = 0
  · by_cases hranking : ranking = 0 <;>
      simp [rankingScalars, hscore, hranking]
  · by_cases hranking : ranking = 0 <;>
      simp [rankingScalars, hscore, hranking]

/-- The padded id fits into what four bytes are counted in exactly if the id
does. -/
theorem paddedLength_le_iff (n m : ℕ) :
    paddedLength n ≤ 4 * m ↔ n + 1 ≤ 4 * m := by
  simp only [paddedLength, paddingBytes]
  omega

/-- Requests with ids of up to 999 bytes fit into a body buffer. -/
theorem requestPlayerRanking_fits_iff (playerId : List UInt8) :
    (requestPlayerRanking playerId).length ≤ BUFFER_SIZE ↔
      playerId.length ≤ 999 := by
  have hpadded := paddedLength_le_iff playerId.length 250
  rw [length_requestPlayerRanking, BUFFER_SIZE]
  omega

/-- Responses need room for a larger table. -/
theorem responsePlayerRanking_fits_iff (playerId : List UInt8)
    (score ranking : ℤ) (inRanking : Bool) :
    (responsePlayerRanking playerId score ranking inRanking true).length ≤
        BUFFER_SIZE ↔
      playerId.length + 4 * [score, ranking].countP (· ≠ 0) ≤ 987 := by
  have hscalars : [score, ranking].countP (· ≠ 0) ≤ 2 :=
    List.countP_le_length
  have hpadded := paddedLength_le_iff playerId.length
    (247 - [score, ranking].countP (· ≠ 0))
  rw [length_responsePlayerRanking, length_rankingScalars, BUFFER_SIZE]
  omega

/-- An acceptable request has a response that fits exactly if the id, and the
score and the rank as far as they are not zero, leave room for the larger
table. -/
theorem response_PlayerRanking_fits_iff (playerId : List UInt8)
    {cached : Option (List UInt8)} {ranking : ℤ × ℤ}
    (hcached : cachedRanking cached = some ranking) (socketId : ℕ) :
    ((requestPlayerRanking playerId).length ≤ BUFFER_SIZE ↔
        playerId.length ≤ 999) ∧
      ((∃ body, response_PlayerRanking cached socketId playerId =
          .responded [] socketId MessageContent_RESPONSE_PLAYER_RANKING body ∧
        body.length ≤ BUFFER_SIZE) ↔
        playerId.length + 4 * [ranking.1, ranking.2].countP (· ≠ 0) ≤ 987) := by
  obtain ⟨inRanking, hresponse⟩ :=
    response_PlayerRanking_eq hcached socketId playerId
  have hreply := responsePlayerRanking_fits_iff playerId ranking.1 ranking.2
    inRanking
  refine ⟨requestPlayerRanking_fits_iff playerId, ?_, ?_⟩
  · rintro ⟨body, hbody, hfits⟩
    rw [hresponse] at hbody
    cases hbody
    exact hreply.mp hfits
  · intro hroom
    exact ⟨_, hresponse, hreply.mpr hroom⟩

/-- A player with a short id and no ranking. -/
theorem response_PlayerRanking_fits_short :
    ∃ body, response_PlayerRanking none 1 (ascii "A") =
        .responded [] 1 MessageContent_RESPONSE_PLAYER_RANKING body ∧
      body.length ≤ BUFFER_SIZE :=
  (response_PlayerRanking_fits_iff (ascii "A") rfl 1).2.mpr (by decide)

/-- The request for an id of 988 bytes fits, the response does not. -/
theorem not_response_PlayerRanking_fits_long :
    ¬ ∀ playerId cached ranking socketId,
      (requestPlayerRanking playerId).length ≤ BUFFER_SIZE →
        cachedRanking cached = some ranking →
          ∃ body, response_PlayerRanking cached socketId playerId =
              .responded [] socketId MessageContent_RESPONSE_PLAYER_RANKING
                body ∧
            body.length ≤ BUFFER_SIZE := by
  obtain ⟨playerId, hlength⟩ : ∃ id : List UInt8, id.length = 988 :=
    ⟨List.replicate 988 65, List.length_replicate⟩
  have hrequest := (requestPlayerRanking_fits_iff playerId).mpr (by omega)
  have hreply := responsePlayerRanking_fits_iff playerId 0 0 false
  intro hall
  obtain ⟨body, hbody, hfits⟩ := hall playerId none (0, 0) 1 hrequest rfl
  cases hbody
  have hroom := hreply.mp hfits
  omega

end Hub

end RankingServer.Business
