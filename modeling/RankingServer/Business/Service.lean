import RankingServer.Business.Hub
import RankingServer.Network.Conversation
import RankingServer.Network.Framing
import RankingServer.Network.StartUp

/-!
# The server with the request handler of the hub

`Hub::Initialize` registers `Hub::Read` as the receive callback and
`RankingSystem::Ready` installs `Hub::Send` behind it.  Here the network server
runs with this callback: when it finds `Hub::Send` installed, what each slot
gets to see of it, and how long the pool of operations lasts.
-/

namespace RankingServer.Business.Hub

open Flatbuffers Network Protocol Transition

/-! ## The receive callback -/

/-- What a worker does next.  An exception leaves the worker's thread function,
which ends the process; so does, in the model, a read outside the body. -/
def reaction : Outcome → Reaction
  | .faulted _ | .thrown => .aborts
  | .returned => .returns
  | .responded _ socketId contentsType body =>
      .sends socketId contentsType body

/-- `mReceiveCallback` -/
def receiveCallback : Handler (Option (List UInt8)) :=
  fun mSendCallback received cached =>
    reaction (read mSendCallback cached received)

/-- The response that goes with a request. -/
def responseType (requestType : ℕ) : ℕ :=
  if messageContent requestType = MessageContent_REQUEST_SAVE_SCORE then
    MessageContent_RESPONSE_SAVE_SCORE
  else MessageContent_RESPONSE_PLAYER_RANKING

/-- A request is answered by a message of the matching type that is addressed to
the slot and names the player of the request. -/
def contract : Contract where
  isRequest received :=
    messageContent received.contentsType = MessageContent_REQUEST_SAVE_SCORE ∨
      messageContent received.contentsType =
        MessageContent_REQUEST_PLAYER_RANKING
  answers received wire :=
    wire.take 4 = networkBytes received.socketId ∧
      (wire.drop 8).take 4 =
        networkBytes (responseType received.contentsType) ∧
      (respondedPlayer (wire.drop HEADER_SIZE)).toOption =
        (requestAt received.contentsType received.bodyBuffer).playerId

/-! ## The window of start-up -/

/-- The call of the empty callback throws, and nothing catches it. -/
theorem crash_of_callsEmpty {n : ℕ} {c : Config} {s s' : State n}
    {e : Event (Option (List UInt8)) n} (hcalls : CallsEmpty s e)
    (hstep : State.step c receiveCallback s e = some s') :
    s'.crash = some .aborted := by
  obtain ⟨hempty, w, ok, cached, overlapped, slot, received, rfl, hw⟩ := hcalls
  have haborts :
      receiveCallback s.mSendCallback received cached = .aborts := by
    rw [hempty]
    rfl
  obtain ⟨hcrash, -⟩ := State.step_cases hstep
  have h : Step c receiveCallback s (.work w ok cached) _ :=
    .aborted hw haborts
  rw [State.step_eq_some hcrash h] at hstep
  cases hstep
  rfl

/-- A run in which bytes of clients arrive only once `RankingSystem::Ready` has
stored the send callback never calls it while it is empty.  A run in which some
arrive earlier can go on to do so, which ends the process. -/
theorem installed_before_called (n : ℕ) (c : Config) :
    (∀ s : State n,
      Reachable (State.step c receiveCallback) (Started c) Timely s →
        ∀ e : Event (Option (List UInt8)) n, ¬ CallsEmpty s e) ∧
    ∀ (s s' : State n) (e : Event (Option (List UInt8)) n),
      Reachable (State.step c receiveCallback) (Started c) Timely s →
        State.step c receiveCallback s e = some s' → ¬ Timely s e →
          ∃ es t f t', run (State.step c receiveCallback) s' es = some t ∧
            CallsEmpty t f ∧ State.step c receiveCallback t f = some t' ∧
              t'.crash = some .aborted := by
  constructor
  · intro s hs e
    exact not_callsEmpty_of_timely hs e
  · intro s s' e hs hstep hlate
    obtain ⟨es, t, f, t', hrun, hcalls, hlast⟩ :=
      exists_callsEmpty_of_not_timely hs hstep hlate none
    exact ⟨es, t, f, t', hrun, hcalls, hlast,
      crash_of_callsEmpty hcalls hlast⟩

/-- The request of the first client arrives after start-up, and a worker is
about to hand it to the callback. -/
theorem installed_before_called_firstRequest :
    ∃ s : State 2,
      run (State.step mainConfig receiveCallback)
          (initialized 2 mainConfig (fun _ => []) fun _ => [])
          (firstConnection 0 none ++
            [.complete 0 Framing.rankingRequest.wire, .dequeue 1 0,
              .work 1 true none]) = some s ∧
        s.workers 1 = .handling 10 1
          (Session.receivedData 1 Framing.rankingRequest.wire) ∧
        ¬ CallsEmpty s (.work 1 true none : Event (Option (List UInt8)) 2) := by
  have hruns : ∃ s ∈ runWhile (State.step mainConfig receiveCallback) Timely
      (initialized 2 mainConfig (fun _ => []) fun _ => [])
      (firstConnection 0 none ++
        [.complete 0 Framing.rankingRequest.wire, .dequeue 1 0,
          .work 1 true none]),
        s.workers 1 = .handling 10 1
          (Session.receivedData 1 Framing.rankingRequest.wire) := by
    decide +kernel
  obtain ⟨s, hrun, hw⟩ := hruns
  exact ⟨s, run_of_runWhile hrun, hw,
    (installed_before_called 2 mainConfig).1 s
      (.of_runWhile (.start ⟨_, _, rfl⟩) hrun) _⟩

/-- The first client is connected and its request has arrived when the main
thread has started one worker. -/
def requestDuringStartUp (w : Fin 2) (request : List UInt8) :
    List (Event (Option (List UInt8)) 2) :=
  List.replicate 22 (.main true) ++ [.complete 9 [], .dequeue w 9] ++
    List.replicate 4 (.work w true none) ++
      [.complete 0 request, .dequeue w 0, .work w true none]

/-- The request of a client that is waiting when the server starts can reach the
callback before it is installed. -/
theorem not_installed_of_requestDuringStartUp :
    ¬ ∀ s : State 2,
      Reachable (State.step mainConfig receiveCallback) (Started mainConfig)
        unguarded s →
      ∀ e, (State.step mainConfig receiveCallback s e).isSome →
        ¬ CallsEmpty s e := by
  have hruns : ∃ s ∈ run (State.step mainConfig receiveCallback)
      (initialized 2 mainConfig (fun _ => []) fun _ => [])
      (requestDuringStartUp 0 Framing.rankingRequest.wire),
        s.crash = none ∧ s.mSendCallback = false ∧ s.workers 0 =
          .handling 10 1
            (Session.receivedData 1 Framing.rankingRequest.wire) := by
    decide +kernel
  obtain ⟨s, hrun, hcrash, hempty, hw⟩ := hruns
  obtain ⟨s', hstep⟩ :=
    exists_step_handling mainConfig receiveCallback none hcrash hw
  intro hall
  exact hall s (.of_unguarded_run (.start ⟨_, _, rfl⟩) hrun)
    (.work 0 true none) (by simp [hstep])
    ⟨hempty, 0, true, none, _, _, _, rfl, hw⟩

/-! ## Requests that can be answered -/

/-- The score and the rank in the answer of the cache, both zero when it has no
entry. -/
def cachedRanking (cached : Option (List UInt8)) : Option (ℤ × ℤ) :=
  match getCachedData cached with
  | none => none
  | some none => some (0, 0)
  | some (some playerRanking) =>
      (Data_Ranking.ofJson playerRanking).map fun data_Ranking =>
        (data_Ranking.mScore, data_Ranking.mRrank)

/-- The response to the request can be built and fits into a body buffer. -/
def HasResponse (cached : Option (List UInt8)) : Request → Prop
  | .playerRanking playerId =>
      ∃ ranking ∈ cachedRanking cached,
        36 + (rankingScalars ranking.1 ranking.2).length +
          paddedLength playerId.length ≤ BUFFER_SIZE
  | .saveScore playerId _ _ =>
      Json.wellFormed playerId = true ∧
        28 + paddedLength playerId.length ≤ BUFFER_SIZE
  | .contentsTypeError => True

instance (cached : Option (List UInt8)) : DecidablePred (HasResponse cached)
  | .playerRanking _ => inferInstanceAs
      (Decidable (∃ ranking ∈ cachedRanking cached, _ ≤ _))
  | .saveScore _ _ _ => inferInstanceAs (Decidable (_ ∧ _))
  | .contentsTypeError => inferInstanceAs (Decidable True)

/-- The send callback is installed, and the request can be decoded and has a
response. -/
def Answerable (mSendCallback : Bool) (cached : Option (List UInt8))
    (received : Received) : Prop :=
  mSendCallback = true ∧
    Decodable received.contentsType received.bodyBuffer ∧
      HasResponse cached
        (requestAt received.contentsType received.bodyBuffer)

instance (mSendCallback : Bool) (cached : Option (List UInt8))
    (received : Received) :
    Decidable (Answerable mSendCallback cached received) :=
  inferInstanceAs (Decidable (_ ∧ _))

/-- Which messages are requests. -/
theorem requestAt_cases (requestType : ℕ) (bodyBuffer : List UInt8) :
    (messageContent requestType = MessageContent_REQUEST_PLAYER_RANKING ∧
        ∃ playerId,
          requestAt requestType bodyBuffer = .playerRanking playerId) ∨
      (messageContent requestType = MessageContent_REQUEST_SAVE_SCORE ∧
        ∃ playerId score lastUpdate, requestAt requestType bodyBuffer =
          .saveScore playerId score lastUpdate) ∨
      (messageContent requestType ≠ MessageContent_REQUEST_PLAYER_RANKING ∧
        messageContent requestType ≠ MessageContent_REQUEST_SAVE_SCORE ∧
          requestAt requestType bodyBuffer = .contentsTypeError) := by
  by_cases hranking :
      messageContent requestType = MessageContent_REQUEST_PLAYER_RANKING
  · exact Or.inl ⟨hranking, _, if_pos hranking⟩
  by_cases hsave :
      messageContent requestType = MessageContent_REQUEST_SAVE_SCORE
  · rw [requestAt, if_neg hranking, if_pos hsave]
    exact Or.inr (Or.inl ⟨hsave, _, _, _, rfl⟩)
  · rw [requestAt, if_neg hranking, if_neg hsave]
    exact Or.inr (Or.inr ⟨hranking, hsave, rfl⟩)

/-- Once the send callback is installed, a decodable request is handled with
the fields it has. -/
theorem read_of_decodable {received : Received}
    (h : Decodable received.contentsType received.bodyBuffer)
    (cached : Option (List UInt8)) :
    read true cached received = handle cached received.socketId
      (requestAt received.contentsType received.bodyBuffer) := by
  rw [read, if_pos rfl, send_of_decodable h]

theorem response_PlayerRanking_eq {cached : Option (List UInt8)}
    {ranking : ℤ × ℤ} (h : cachedRanking cached = some ranking)
    (socketId : ℕ) (playerId : List UInt8) :
    ∃ inRanking, response_PlayerRanking cached socketId playerId =
      .responded [] socketId MessageContent_RESPONSE_PLAYER_RANKING
        (responsePlayerRanking playerId ranking.1 ranking.2 inRanking
          true) := by
  rw [response_PlayerRanking]
  unfold cachedRanking at h
  cases hcached : getCachedData cached with
  | none => simp [hcached] at h
  | some entry =>
      cases entry with
      | none =>
          obtain rfl : (0, 0) = ranking := by simpa [hcached] using h
          exact ⟨false, rfl⟩
      | some playerRanking =>
          simp only [hcached, Option.map_eq_some_iff] at h
          obtain ⟨data_Ranking, hdata, rfl⟩ := h
          exact ⟨true, by simp only [hdata]⟩

theorem response_SaveScore_eq {playerID : List UInt8}
    (h : Json.wellFormed playerID = true) (socketId : ℕ)
    (newScore unixUpdateDate : ℤ) :
    ∃ stored, response_SaveScore socketId playerID newScore unixUpdateDate =
      .responded stored socketId MessageContent_RESPONSE_SAVE_SCORE
        (responseSaveScore playerID true) := by
  obtain ⟨jsonString, hdump⟩ :=
    Data_Score.exists_dump_toJson h newScore unixUpdateDate
  refine ⟨[setCachedData (ascii "Score") playerID jsonString 60], ?_⟩
  rw [response_SaveScore, hdump]

theorem lt_of_paddedLength_le {n m : ℕ}
    (h : m + paddedLength n ≤ BUFFER_SIZE) : n < 2 ^ 32 := by
  simp only [paddedLength, BUFFER_SIZE] at h
  omega

theorem reply_of_respondedPlayer {received : Received} {playerId : List UInt8}
    {body : List UInt8} {contentsType : ℕ}
    (htype : responseType received.contentsType = contentsType)
    (hrequest : (requestAt received.contentsType
      received.bodyBuffer).playerId = some playerId)
    (hfits : body.length ≤ BUFFER_SIZE)
    (hplayer : respondedPlayer body = .ok playerId) :
    Reply contract received received.socketId contentsType body := by
  obtain ⟨hsocket, hcontents, hbody⟩ :=
    NetworkManager.wire_fields received.socketId contentsType body
  refine ⟨hfits, ?_⟩
  simp [contract, hsocket, hcontents, hbody, htype, hrequest, hplayer,
    Except.toOption]

/-- An answerable request is answered. -/
theorem reacts_of_answerable {mSendCallback : Bool}
    {cached : Option (List UInt8)} {received : Received}
    (h : Answerable mSendCallback cached received) :
    Reacts contract received
      (receiveCallback mSendCallback received cached) := by
  obtain ⟨rfl, hdecodable, hfields⟩ := h
  rw [receiveCallback, read_of_decodable hdecodable]
  rcases requestAt_cases received.contentsType received.bodyBuffer with
    ⟨htype, playerId, hrequest⟩ | ⟨htype, playerId, score, lastUpdate, hrequest⟩
      | ⟨hranking, hsave, hrequest⟩
  · rw [hrequest] at hfields ⊢
    obtain ⟨ranking, hcached, hfits⟩ := hfields
    obtain ⟨inRanking, hresponse⟩ :=
      response_PlayerRanking_eq hcached received.socketId playerId
    rw [handle, hresponse]
    refine ⟨by simp [contract, htype], rfl, reply_of_respondedPlayer ?_
      (congrArg Request.playerId hrequest) ?_
      (respondedPlayer_responsePlayerRanking (lt_of_paddedLength_le hfits)
        ranking.1 ranking.2 inRanking)⟩
    · rw [responseType, htype]
      rfl
    · rwa [length_responsePlayerRanking]
  · rw [hrequest] at hfields ⊢
    obtain ⟨hwellFormed, hfits⟩ := hfields
    obtain ⟨stored, hresponse⟩ := response_SaveScore_eq hwellFormed
      received.socketId score (koreaTime lastUpdate)
    rw [handle, hresponse]
    refine ⟨by simp [contract, htype], rfl, reply_of_respondedPlayer
      (if_pos htype) (congrArg Request.playerId hrequest) ?_
      (respondedPlayer_responseSaveScore (lt_of_paddedLength_le hfits))⟩
    rwa [length_responseSaveScore]
  · rw [hrequest, handle]
    simp [reaction, Reacts, contract, hranking, hsave]

/-! ## One conversation for each slot -/

section Conversation

variable {n : ℕ} {c : Config} {s : State n}

/-- The worker does not handle a request that has no answer, and the system
accepts the send of a response. -/
def WorkerAnswers (mSendCallback ok : Bool) (cached : Option (List UInt8)) :
    Worker → Prop
  | .handling _ _ received => Answerable mSendCallback cached received
  | .popped _ _ (.send _ _ _) _ => ok = true
  | _ => True

instance (mSendCallback ok : Bool) (cached : Option (List UInt8)) :
    DecidablePred (WorkerAnswers mSendCallback ok cached)
  | .handling _ _ received => inferInstanceAs
      (Decidable (Answerable mSendCallback cached received))
  | .popped _ _ (.send _ _ _) _ => inferInstanceAs (Decidable (ok = true))
  | .popped _ _ .receiveReady _ | .unstarted | .waiting | .dispatching _ _
  | .calling _ _ _ | .recycling _ => inferInstanceAs (Decidable True)

def Answers (s : State n) : Event (Option (List UInt8)) n → Prop
  | .work w ok cached =>
      WorkerAnswers s.mSendCallback ok cached (s.workers w)
  | .main _ | .dequeue _ _ | .complete _ _ | .fail _ => True

instance (s : State n) : DecidablePred (Answers s)
  | .work w ok cached => inferInstanceAs
      (Decidable (WorkerAnswers s.mSendCallback ok cached (s.workers w)))
  | .main _ | .dequeue _ _ | .complete _ _ | .fail _ =>
      inferInstanceAs (Decidable True)

/-- The guard of a run in which pops succeed and every request has an
answer. -/
def Answered (c : Config) (s : State n)
    (e : Event (Option (List UInt8)) n) : Prop :=
  (Pops c s e → s.mOverlappedQueue.pop.2 ≠ none) ∧ Answers s e

theorem Answered.proper {e : Event (Option (List UInt8)) n}
    (h : Answered c s e) : Proper contract c receiveCallback s e where
  pops := h.1
  duty := by
    rintro w ok cached rfl
    have hanswers : WorkerAnswers s.mSendCallback ok cached (s.workers w) := h.2
    match s.workers w, hanswers with
    | .handling _ _ _, hanswers => exact reacts_of_answerable hanswers
    | .popped _ _ (.send _ _ _) _, hanswers => exact hanswers
    | .popped _ _ .receiveReady _, _ | .unstarted, _ | .waiting, _
    | .dispatching _ _, _ | .calling _ _ _, _ | .recycling _, _ => trivial

/-- Each slot has one conversation: requests are handled one at a time in the
order in which they arrive, and each is answered once, on its own slot and for
its own player, before the next receive is posted. -/
theorem serialised_of_answered
    (hs : Reachable (State.step c receiveCallback) (Started c) (Answered c)
      s) : Serialised contract s :=
  serialised_of_proper (hs.mono fun _ _ h => h.proper)

end Conversation

/-- The first client sends a request, and worker `w` goes on until it is back at
the port. -/
def firstRequest (w : Fin 2) (request : List UInt8) :
    List (Event (Option (List UInt8)) 2) :=
  firstConnection w none ++
    [.complete 0 request, .dequeue w 0] ++ List.replicate 7 (.work w true none)

/-- A ranking request of the first client of the server that `main` starts. -/
theorem serialised_firstRequest :
    ∃ s, run (State.step mainConfig receiveCallback)
        (initialized 2 mainConfig (fun _ => []) fun _ => [])
        (firstRequest 0 Framing.rankingRequest.wire) = some s ∧
      Serialised contract s := by
  have hruns : (runWhile (State.step mainConfig receiveCallback)
      (fun s e => s.mOverlappedQueue.pop.2 ≠ none ∧ Answers s e)
      (initialized 2 mainConfig (fun _ => []) fun _ => [])
      (firstRequest 0 Framing.rankingRequest.wire)).isSome := by
    decide +kernel
  obtain ⟨s, hrun⟩ := Option.isSome_iff_exists.mp hruns
  have hreached := Reachable.of_runWhile
    (.start ⟨_, _, rfl⟩ : Reachable _ (Started mainConfig) _ _) hrun
  exact ⟨s, run_of_runWhile hrun, serialised_of_answered
    (hreached.mono fun _ _ h => ⟨fun _ => h.1, h.2⟩)⟩

/-- A save request for a player whose id is the byte 255. -/
def invalidRequest : List UInt8 :=
  networkBytes 1 ++ networkBytes 28 ++ networkBytes 1 ++
    [12, 0, 0, 0, 0, 0, 6, 0, 8, 0, 4, 0, 6, 0, 0, 0, 4, 0, 0, 0,
      1, 0, 0, 0, 255, 0, 0, 0]

/-- The request is handled. -/
def invalidRequestHandled (w : Fin 2) :
    List (Event (Option (List UInt8)) 2) :=
  firstConnection w none ++
    [.complete 0 invalidRequest, .dequeue w 0, .work w true none,
      .work w true none]

/-- The id is not UTF-8, so that `dump` throws and the request gets no
response. -/
theorem not_serialised_of_invalidRequest :
    ¬ ∀ s : State 2,
      Reachable (State.step mainConfig receiveCallback) (Started mainConfig)
        (fun s e => s.mOverlappedQueue.pop.2 ≠ none ∧ Succeeds e) s →
      Serialised contract s := by
  have hruns : ∃ s ∈ runWhile (State.step mainConfig receiveCallback)
      (fun s e => s.mOverlappedQueue.pop.2 ≠ none ∧ Succeeds e)
      (initialized 2 mainConfig (fun _ => []) fun _ => [])
      (invalidRequestHandled 0),
        s.crash = some .aborted ∧ phaseOf contract 1 s.log =
          some (.owing (Session.receivedData 1 invalidRequest)) := by
    decide +kernel
  obtain ⟨s, hrun, hcrash, howing⟩ := hruns
  intro hall
  have hserialised := hall s (.of_runWhile (.start ⟨_, _, rfl⟩) hrun)
  have hnone := (hserialised.answered 1 _ howing).1
  rw [hcrash] at hnone
  cases hnone

/-! ## How long the pool lasts -/

/-- The ranking request is answered while the cache has no entry. -/
theorem responds_rankingRequest :
    Responds receiveCallback 1 Framing.rankingRequest.wire none := by
  have hdecodable : Decodable
      (Session.receivedData 1 Framing.rankingRequest.wire).contentsType
      (Session.receivedData 1 Framing.rankingRequest.wire).bodyBuffer ∧
      requestAt
        (Session.receivedData 1 Framing.rankingRequest.wire).contentsType
        (Session.receivedData 1 Framing.rankingRequest.wire).bodyBuffer =
          .playerRanking (ascii "A") := by
    decide +kernel
  intro o hblank
  obtain ⟨inRanking, hresponse⟩ := response_PlayerRanking_eq
    (rfl : cachedRanking none = some (0, 0)) 1 (ascii "A")
  rw [Session.received_receive 1 hblank, receiveCallback,
    read_of_decodable hdecodable.1, hdecodable.2, handle]
  exact ⟨_, _, congrArg reaction hresponse⟩

/-- A client that keeps asking for a ranking and reads no response makes a pop
return a null pointer, although no socket call fails. -/
theorem not_no_nullPointer_of_rankingRequests :
    ¬ ∀ (hg bg : Pointer → List UInt8)
        (es : List (Event (Option (List UInt8)) 2)),
      Every (State.step mainConfig receiveCallback) (fun _ e => Succeeds e)
        (initialized 2 mainConfig hg bg) es →
      Throughout (State.step mainConfig receiveCallback)
        (fun s => s.crash ≠ some .nullPointer)
        (initialized 2 mainConfig hg bg) es := by
  obtain ⟨hg, bg, es, s, hevery, hrun, hdry⟩ :=
    exists_run_nullPointer responds_rankingRequest (by decide) (by decide)
  intro hall
  exact (hall hg bg es hevery).last hrun hdry

end RankingServer.Business.Hub
