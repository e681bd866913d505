import RankingServer.Business.Cache
import RankingServer.Network.Client
import RankingServer.Protocol

/-!
# The request handler

`Hub::Send` is what a received message ends up in: it follows the offsets of the
body to the fields of the request, talks to the cache, and builds the response.
What Redis answers to the `GET` of `GetCachedData` is an argument.

The body is untrusted and no verifier runs over it.  `Decodable` says in terms
of the bytes of the body when all reads stay inside it and find a player id.
-/

namespace RankingServer.Business

open Flatbuffers Protocol

/-- A request with its fields. -/
inductive Request
  | playerRanking (playerId : List UInt8)
  | saveScore (playerId : List UInt8) (score lastUpdate : ℤ)
  | contentsTypeError
deriving DecidableEq, Repr

/-- The player a request is about. -/
def Request.playerId : Request → Option (List UInt8)
  | playerRanking playerId | saveScore playerId _ _ => some playerId
  | contentsTypeError => none

/-- How a call of `Hub::Send` ends: with a read outside the body or through a
null pointer, with an exception, by returning without a message, or after
passing a message to `NetworkManager::Send`. -/
inductive Outcome
  | faulted (fault : Fault)
  | thrown
  | returned
  | responded (stored : List SetCommand) (socketId contentsType : ℕ)
      (body : List UInt8)
deriving DecidableEq, Repr

/-- The values of a `std::time_t`. -/
def IsTime (n : ℤ) : Prop := -2 ^ 63 ≤ n ∧ n < 2 ^ 63

instance : DecidablePred IsTime :=
  fun n => inferInstanceAs (Decidable (-2 ^ 63 ≤ n ∧ n < 2 ^ 63))

namespace Hub

/-- The reads that `Hub::Send` makes for the request. -/
def decode (requestType : ℕ) (bodyBuffer : List UInt8) : Access Request :=
  if messageContent requestType = MessageContent_REQUEST_PLAYER_RANKING then
    (getRoot bodyBuffer).bind fun data =>
    (REQUEST_PLAYER_RANKING.player_id bodyBuffer data).bind fun playerId =>
    .ok (.playerRanking playerId)
  else if messageContent requestType = MessageContent_REQUEST_SAVE_SCORE then
    (getRoot bodyBuffer).bind fun data =>
    (REQUEST_SAVE_SCORE.last_update bodyBuffer data).bind fun lastUpdate =>
    (REQUEST_SAVE_SCORE.player_id bodyBuffer data).bind fun playerId =>
    (REQUEST_SAVE_SCORE.score bodyBuffer data).bind fun score =>
    .ok (.saveScore playerId score lastUpdate)
  else .ok .contentsTypeError

/-- `Response_SaveScore`; `dump` throws for an id that is not UTF-8. -/
def response_SaveScore (socketId : ℕ) (playerID : List UInt8)
    (newScore unixUpdateDate : ℤ) : Outcome :=
  match Json.dump (Data_Score.toJson playerID newScore unixUpdateDate) with
  | none => .thrown
  | some jsonString =>
      .responded [setCachedData (ascii "Score") playerID jsonString 60] socketId
        MessageContent_RESPONSE_SAVE_SCORE (responseSaveScore playerID true)

/-- `Response_PlayerRanking` -/
def response_PlayerRanking (cached : Option (List UInt8)) (socketId : ℕ)
    (playerId : List UInt8) : Outcome :=
  match getCachedData cached with
  | none => .thrown
  | some none =>
      .responded [] socketId MessageContent_RESPONSE_PLAYER_RANKING
        (responsePlayerRanking playerId 0 0 false true)
  | some (some playerRanking) =>
      match Data_Ranking.ofJson playerRanking with
      | none => .thrown
      | some data_Ranking =>
          .responded [] socketId MessageContent_RESPONSE_PLAYER_RANKING
            (responsePlayerRanking playerId data_Ranking.mScore
              data_Ranking.mRrank true true)

/-- `koreaTime`, a sum of two `std::time_t` values. -/
def koreaTime (unixDate : ℤ) : ℤ := (unixDate + 9 * 3600).bmod (2 ^ 64)

theorem koreaTime_of_isTime {unixDate : ℤ}
    (h : IsTime (unixDate + 9 * 3600)) :
    koreaTime unixDate = unixDate + 9 * 3600 := by
  obtain ⟨hlow, hhigh⟩ := h
  apply Int.bmod_eq_of_le <;> omega

/-- `Send` once the fields are read. -/
def handle (cached : Option (List UInt8)) (socketId : ℕ) : Request → Outcome
  | .playerRanking playerId => response_PlayerRanking cached socketId playerId
  | .saveScore playerId score lastUpdate =>
      response_SaveScore socketId playerId score (koreaTime lastUpdate)
  | .contentsTypeError => .returned

/-- `Send` -/
def send (cached : Option (List UInt8)) (socketId requestType : ℕ)
    (bodyBuffer : List UInt8) : Outcome :=
  match decode requestType bodyBuffer with
  | .error fault => .faulted fault
  | .ok request => handle cached socketId request

/-- `Read`, through `RankingSystem::MessageRead`.  Calling the send callback
before `RankingSystem::Ready` stored it throws. -/
def read (mSendCallback : Bool) (cached : Option (List UInt8))
    (received : Network.Received) : Outcome :=
  if mSendCallback then
    send cached received.socketId received.contentsType received.bodyBuffer
  else .thrown

/-! ## When the reads stay inside the body -/

/-- The pointer to the root table. -/
def rootAt (bodyBuffer : List UInt8) : ℤ := scalarAt uoffset_t bodyBuffer 0

/-- All that is read of a request lies inside the body, and the player id is
present. -/
def Decodable (requestType : ℕ) (bodyBuffer : List UInt8) : Prop :=
  if messageContent requestType = MessageContent_REQUEST_PLAYER_RANKING then
    StringFieldWithin bodyBuffer (rootAt bodyBuffer)
      REQUEST_PLAYER_RANKING.VT_PLAYER_ID
  else if messageContent requestType = MessageContent_REQUEST_SAVE_SCORE then
    FieldWithin 8 bodyBuffer (rootAt bodyBuffer)
        REQUEST_SAVE_SCORE.VT_LAST_UPDATE ∧
      StringFieldWithin bodyBuffer (rootAt bodyBuffer)
        REQUEST_SAVE_SCORE.VT_PLAYER_ID ∧
      FieldWithin 4 bodyBuffer (rootAt bodyBuffer) REQUEST_SAVE_SCORE.VT_SCORE
  else True

instance (requestType : ℕ) (bodyBuffer : List UInt8) :
    Decidable (Decodable requestType bodyBuffer) :=
  inferInstanceAs (Decidable
    (if messageContent requestType = MessageContent_REQUEST_PLAYER_RANKING then
      StringFieldWithin bodyBuffer _ _
    else if messageContent requestType = MessageContent_REQUEST_SAVE_SCORE then
      FieldWithin 8 bodyBuffer _ _ ∧ StringFieldWithin bodyBuffer _ _ ∧
        FieldWithin 4 bodyBuffer _ _
    else True))

/-- The fields of a decodable request. -/
def requestAt (requestType : ℕ) (bodyBuffer : List UInt8) : Request :=
  if messageContent requestType = MessageContent_REQUEST_PLAYER_RANKING then
    .playerRanking (stringAt bodyBuffer (targetAt bodyBuffer
      (rootAt bodyBuffer) REQUEST_PLAYER_RANKING.VT_PLAYER_ID))
  else if messageContent requestType = MessageContent_REQUEST_SAVE_SCORE then
    .saveScore
      (stringAt bodyBuffer (targetAt bodyBuffer (rootAt bodyBuffer)
        REQUEST_SAVE_SCORE.VT_PLAYER_ID))
      (fieldAt int32_t bodyBuffer (rootAt bodyBuffer)
        REQUEST_SAVE_SCORE.VT_SCORE 0)
      (fieldAt int64_t bodyBuffer (rootAt bodyBuffer)
        REQUEST_SAVE_SCORE.VT_LAST_UPDATE 0)
  else .contentsTypeError

theorem getRoot_eq_ok_iff {bodyBuffer : List UInt8}
    (hlen : 4 ≤ bodyBuffer.length) {data : ℤ} :
    getRoot bodyBuffer = .ok data ↔ rootAt bodyBuffer = data := by
  have hwithin : Within bodyBuffer 0 4 := by
    refine ⟨le_rfl, ?_⟩
    omega
  rw [getRoot, readScalar_eq_ok_iff]
  exact and_iff_right hwithin

/-- Decoding succeeds exactly for decodable requests. -/
theorem decode_eq_ok_iff {requestType : ℕ} {bodyBuffer : List UInt8}
    (hlen : 4 ≤ bodyBuffer.length) {request : Request} :
    decode requestType bodyBuffer = .ok request ↔
      Decodable requestType bodyBuffer ∧
        requestAt requestType bodyBuffer = request := by
  by_cases hranking :
      messageContent requestType = MessageContent_REQUEST_PLAYER_RANKING
  · simp only [decode, Decodable, requestAt, if_pos hranking, bind_eq_ok_iff,
      getRoot_eq_ok_iff hlen, REQUEST_PLAYER_RANKING.player_id,
      getString_eq_ok_iff]
    constructor
    · rintro ⟨_, rfl, _, ⟨hwithin, rfl⟩, hrequest⟩
      exact ⟨hwithin, Except.ok.inj hrequest⟩
    · rintro ⟨hwithin, rfl⟩
      exact ⟨_, rfl, _, ⟨hwithin, rfl⟩, rfl⟩
  by_cases hsave :
      messageContent requestType = MessageContent_REQUEST_SAVE_SCORE
  · simp only [decode, Decodable, requestAt, if_neg hranking, if_pos hsave,
      bind_eq_ok_iff, getRoot_eq_ok_iff hlen, REQUEST_SAVE_SCORE.player_id,
      REQUEST_SAVE_SCORE.last_update, REQUEST_SAVE_SCORE.score,
      getString_eq_ok_iff, getField_eq_ok_iff]
    constructor
    · rintro ⟨_, rfl, _, ⟨hupdate, rfl⟩, _, ⟨hplayer, rfl⟩, _, ⟨hscore, rfl⟩,
        hrequest⟩
      exact ⟨⟨hupdate, hplayer, hscore⟩, Except.ok.inj hrequest⟩
    · rintro ⟨⟨hupdate, hplayer, hscore⟩, rfl⟩
      exact ⟨_, rfl, _, ⟨hupdate, rfl⟩, _, ⟨hplayer, rfl⟩, _, ⟨hscore, rfl⟩,
        rfl⟩
  · simp only [decode, Decodable, requestAt, if_neg hranking, if_neg hsave,
      true_and]
    exact ⟨fun h => Except.ok.inj h, fun h => congrArg Except.ok h⟩

theorem decode_of_decodable {requestType : ℕ} {bodyBuffer : List UInt8}
    (h : Decodable requestType bodyBuffer) :
    decode requestType bodyBuffer = .ok (requestAt requestType bodyBuffer) := by
  have hroot {field : ℤ}
      (hwithin : EntryWithin bodyBuffer (rootAt bodyBuffer) field) :
      decode requestType bodyBuffer =
        .ok (requestAt requestType bodyBuffer) := by
    obtain ⟨hstart, hend⟩ := hwithin.table
    exact (decode_eq_ok_iff (by omega)).mpr ⟨h, rfl⟩
  by_cases hranking :
      messageContent requestType = MessageContent_REQUEST_PLAYER_RANKING
  · have hfields := h
    rw [Decodable, if_pos hranking] at hfields
    exact hroot hfields.toEntryWithin
  by_cases hsave :
      messageContent requestType = MessageContent_REQUEST_SAVE_SCORE
  · have hfields := h
    rw [Decodable, if_neg hranking, if_pos hsave] at hfields
    exact hroot hfields.2.1.toEntryWithin
  · rw [decode, requestAt, if_neg hranking, if_neg hsave, if_neg hranking,
      if_neg hsave]

theorem send_of_decodable {requestType : ℕ} {bodyBuffer : List UInt8}
    (h : Decodable requestType bodyBuffer)
    (cached : Option (List UInt8)) (socketId : ℕ) :
    send cached socketId requestType bodyBuffer =
      handle cached socketId (requestAt requestType bodyBuffer) := by
  rw [send, decode_of_decodable h]

/-- A save request is acknowledged once its entry is stored, unless `dump`
throws. -/
theorem response_SaveScore_cases (socketId : ℕ) (playerID : List UInt8)
    (newScore unixUpdateDate : ℤ) :
    (Json.dump (Data_Score.toJson playerID newScore unixUpdateDate) = none ∧
        response_SaveScore socketId playerID newScore unixUpdateDate =
          .thrown) ∨
      ∃ jsonString,
        Json.dump (Data_Score.toJson playerID newScore unixUpdateDate) =
            some jsonString ∧
          response_SaveScore socketId playerID newScore unixUpdateDate =
            .responded [setCachedData (ascii "Score") playerID jsonString 60]
              socketId MessageContent_RESPONSE_SAVE_SCORE
              (responseSaveScore playerID true) := by
  cases hdump :
      Json.dump (Data_Score.toJson playerID newScore unixUpdateDate) with
  | none =>
      rw [response_SaveScore, hdump]
      exact Or.inl ⟨rfl, rfl⟩
  | some jsonString =>
      rw [response_SaveScore, hdump]
      exact Or.inr ⟨jsonString, rfl, rfl⟩

/-- A ranking request stores nothing. -/
theorem response_PlayerRanking_cases (cached : Option (List UInt8))
    (socketId : ℕ) (playerId : List UInt8) :
    response_PlayerRanking cached socketId playerId = .thrown ∨
      ∃ body, response_PlayerRanking cached socketId playerId =
        .responded [] socketId MessageContent_RESPONSE_PLAYER_RANKING
          body := by
  rw [response_PlayerRanking]
  split
  · exact Or.inl rfl
  · exact Or.inr ⟨_, rfl⟩
  · split
    · exact Or.inl rfl
    · exact Or.inr ⟨_, rfl⟩

/-- Once its fields are read, a request causes no further read of the body. -/
theorem handle_ne_faulted (cached : Option (List UInt8)) (socketId : ℕ)
    (request : Request) (fault : Fault) :
    handle cached socketId request ≠ .faulted fault := by
  cases request with
  | playerRanking playerId =>
      rw [handle]
      rcases response_PlayerRanking_cases cached socketId playerId with
        h | ⟨body, h⟩
      · rw [h]
        simp
      · rw [h]
        simp
  | saveScore playerId score lastUpdate =>
      rw [handle]
      rcases response_SaveScore_cases socketId playerId score
          (koreaTime lastUpdate) with ⟨-, h⟩ | ⟨text, -, h⟩
      · rw [h]
        simp
      · rw [h]
        simp
  | contentsTypeError => rintro ⟨⟩

/-- For every completed receive, the handler stays inside the body and finds a
player id exactly when the request is decodable. -/
theorem send_safe_iff (slot : ℕ) (o : Network.CustomOverlapped)
    (cached : Option (List UInt8)) :
    (∀ fault, send cached slot (Network.Session.received slot o).contentsType
        (Network.Session.received slot o).bodyBuffer ≠ .faulted fault) ↔
      Decodable (Network.Session.received slot o).contentsType
        (Network.Session.received slot o).bodyBuffer := by
  have hlen : 4 ≤ (Network.Session.received slot o).bodyBuffer.length := by
    have hbody : (Network.Session.received slot o).bodyBuffer.length =
        Network.BUFFER_SIZE := o.length_bodyBuf
    rw [hbody, Network.BUFFER_SIZE]
    decide
  constructor
  · intro hsafe
    cases hdecode : decode (Network.Session.received slot o).contentsType
        (Network.Session.received slot o).bodyBuffer with
    | error fault =>
        refine absurd ?_ (hsafe fault)
        rw [send, hdecode]
    | ok request => exact ((decode_eq_ok_iff hlen).mp hdecode).1
  · intro hdecodable fault
    rw [send_of_decodable hdecodable]
    exact handle_ne_faulted cached slot _ fault

/-- Objects in which a receive has completed. -/
def Receivable (o : Network.CustomOverlapped) : Prop :=
  ∃ pooled chunk, pooled.CleanTail ∧ 0 < chunk.length ∧
    chunk.length ≤ Network.HEADER_SIZE + Network.BUFFER_SIZE ∧
    o = (Network.Client.receiveReady pooled).receive chunk

/-- A ranking request that ends with its header. -/
def emptyRequest : List UInt8 :=
  Network.networkBytes 1 ++ Network.networkBytes 0 ++ Network.networkBytes 3

/-- A bare header leads to a null player id. -/
theorem not_send_safe_emptyRequest :
    ¬ ∀ slot o cached fault, Receivable o →
      send cached slot (Network.Session.received slot o).contentsType
        (Network.Session.received slot o).bodyBuffer ≠ .faulted fault := by
  intro hall
  have hclean := Network.CustomOverlapped.cleanTail_construct [] []
  refine hall 1 _ none .null
    ⟨_, emptyRequest, hclean, by decide, by decide, rfl⟩ ?_
  decide +kernel

end Hub

end RankingServer.Business
