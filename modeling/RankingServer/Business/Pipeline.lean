import RankingServer.Business.Cycle
import RankingServer.Business.Save
import RankingServer.Network.Frame
import RankingServer.Protocol.Verification

/-!
# From the bytes of a request to the table

What the parts of the program do to a request, put together: the bytes that a
client writes are cut into the arguments of the receive callback, decoded,
stored in Redis, answered, and merged into SQL.  The last section is about
bytes that no builder made: which of them a verifier would have kept away from
`Hub::Send`.
-/

namespace RankingServer.Business

open Flatbuffers Protocol Network

/-! ## Decoding what was built -/

/-- The bytes on the wire of a message of a client: any socket id is taken. -/
def wire (socketId contentsType : ℕ) (body : List UInt8) : List UInt8 :=
  NetworkManager.header socketId body.length contentsType ++ body

namespace Hub

end Hub

/-! ## Serving requests -/

/-- The answer of Redis to the `GET` that a request leads to. -/
def reply (store : Store) : Access Request → Option (List UInt8)
  | .ok (.playerRanking playerId) => store (cString (rankingKey playerId))
  | .ok (.saveScore _ _ _) | .ok .contentsTypeError | .error _ => none

/-- `Hub::Send` for a received message, in a Redis with these entries. -/
def serve (store : Store) (received : Received) : Outcome :=
  Hub.send
    (reply store (Hub.decode received.contentsType received.bodyBuffer))
    received.socketId received.contentsType received.bodyBuffer

/-- The entries that the outcome leaves. -/
def Outcome.store (outcome : Outcome) (store : Store) : Store :=
  match outcome with
  | .responded stored _ _ _ => setAll stored store
  | .faulted _ | .thrown | .returned => store

/-- A save request of a client. -/
structure SaveRequest where
  key : ℕ
  socketId : ℕ
  playerId : List UInt8
  score : ℤ
  lastUpdate : ℤ

namespace SaveRequest

/-- The completion that delivers the request. -/
def receive (r : SaveRequest) : ℕ × List UInt8 :=
  (r.key, wire r.socketId MessageContent_REQUEST_SAVE_SCORE
    (requestSaveScore r.playerId r.score r.lastUpdate))

/-- What is cached for the request. -/
def data (r : SaveRequest) : Data_Score :=
  ⟨r.playerId, r.score, r.lastUpdate + 9 * 3600⟩

/-- The last request for a player. -/
def last (requests : List SaveRequest) (playerId : List UInt8) :
    Option SaveRequest :=
  requests.reverse.find? fun r => r.playerId = playerId

/-- The client is told in a message it can read that its score was taken. -/
def Acknowledged (r : SaveRequest) (outcome : Outcome) : Prop :=
  ∃ stored body data,
    outcome = .responded stored r.key MessageContent_RESPONSE_SAVE_SCORE body ∧
      getRoot body = .ok data ∧
      RESPONSE_SAVE_SCORE.player_id body data = .ok r.playerId ∧
      RESPONSE_SAVE_SCORE.feedback body data = .ok 1

/-- The row that a save makes of the request. -/
def row {Date : Type*} (clock : Clock Date) (r : SaveRequest) : ScoreRow Date :=
  ⟨r.playerId, r.score, clock.timestampStr (r.lastUpdate + 9 * 3600)⟩

/-- A request of a new player. -/
def first : SaveRequest := ⟨1, 2, ascii "A", 5, 7⟩

end SaveRequest

/-! ## What a player is told -/

/-- The bytes of a ranking request. -/
def rankingRequest (socketId : ℕ) (playerId : List UInt8) : List UInt8 :=
  wire socketId MessageContent_REQUEST_PLAYER_RANKING
    (requestPlayerRanking playerId)

end RankingServer.Business
