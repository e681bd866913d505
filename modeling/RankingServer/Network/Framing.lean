import RankingServer.Network.Client

/-!
# Message framing

A client writes messages onto a byte stream, and the stream arrives in receive
completions cut at arbitrary places.  `Session::Process` takes the contents of
each completion for one message: it decodes the size in the header but compares
it with nothing, and it keeps no bytes from one completion to the next.  The
main result says for which cuts the callbacks see the messages of the client.
-/

namespace RankingServer.Network.Framing

open Scalar

/-- A message as a client writes it. -/
structure Message where
  mSocketId : ℕ
  mContentsType : ℕ
  body : List UInt8
  socketId_lt : mSocketId < 2 ^ 32
  contentsType_lt : mContentsType < 2 ^ 32
  body_le : body.length ≤ BUFFER_SIZE

namespace Message

/-- The message on the stream: the header in network order, then the body. -/
def wire (m : Message) : List UInt8 :=
  networkBytes m.mSocketId ++ (networkBytes m.body.length ++
    (networkBytes m.mContentsType ++ m.body))

@[simp] theorem length_wire (m : Message) :
    m.wire.length = HEADER_SIZE + m.body.length := by
  simp [wire, HEADER_SIZE]
  omega

end Message

/-- What a handler can tell about a message it is called for. -/
structure Delivery where
  bodySize : ℕ
  contentsType : ℕ
  body : List UInt8
deriving DecidableEq, Repr

def Message.delivery (m : Message) : Delivery :=
  ⟨m.body.length, m.mContentsType, m.body⟩

def Received.delivery (r : Received) : Delivery :=
  ⟨r.bodySize, r.contentsType, r.bodyBuffer.take r.bodySize⟩

/-- The callbacks for the completions of one slot, each of which arrived in an
object that `ReceiveReady` took from the pool.  A completion of zero bytes is
taken for a disconnect. -/
def delivered (slot : ℕ) :
    List (CustomOverlapped × List UInt8) → List Delivery
  | [] => []
  | (o, data) :: rest =>
      if data.length ≤ 0 then delivered slot rest
      else Received.delivery
          (Session.received slot ((Client.receiveReady o).receive data)) ::
        delivered slot rest

/-- The stream of the messages, cut into completions. -/
structure IsCut (messages : List Message) (chunks : List (List UInt8)) :
    Prop where
  flatten_eq : chunks.flatten = (messages.map Message.wire).flatten
  pos : ∀ chunk ∈ chunks, 0 < chunk.length
  fits : ∀ chunk ∈ chunks, chunk.length ≤ HEADER_SIZE + BUFFER_SIZE

/-- Filled up with zeros, the completion shows the message from its size field
on. -/
def Shows (chunk : List UInt8) (m : Message) : Prop :=
  ((pad (HEADER_SIZE + BUFFER_SIZE) chunk).take m.wire.length).drop 4 =
    m.wire.drop 4

/-! ## Decoding one completion -/

/-- `ntohl` inverts the network order, and nothing else has that image. -/
theorem ntohl_eq_iff {bs : List UInt8} {n : ℕ} (hlen : bs.length = 4)
    (hn : n < 2 ^ 32) : ntohl (ofBytes bs) = n ↔ bs = networkBytes n := by
  constructor
  · intro h
    have himage : toBytes 4 (ofBytes bs) = bs := by
      rw [← hlen]
      exact toBytes_ofBytes bs
    have hreverse : toBytes 4 (ofBytes bs.reverse) = bs.reverse := by
      have hlen' : bs.reverse.length = 4 := by simp [hlen]
      rw [← hlen']
      exact toBytes_ofBytes bs.reverse
    rw [ntohl, htonl, himage] at h
    rw [networkBytes, ← h, hreverse, List.reverse_reverse]
  · rintro rfl
    exact ntohl_networkBytes hn

theorem shows_iff (chunk : List UInt8) (m : Message) :
    Shows chunk m ↔
      (pad HEADER_SIZE chunk).drop 4 =
          networkBytes m.body.length ++ networkBytes m.mContentsType ∧
        (pad BUFFER_SIZE (chunk.drop HEADER_SIZE)).take m.body.length =
          m.body := by
  have hpad : (pad HEADER_SIZE chunk).length = HEADER_SIZE := length_pad _ _
  have hid : (networkBytes m.mSocketId).length = 4 := length_networkBytes _
  have hwire : m.wire.drop 4 =
      (networkBytes m.body.length ++ networkBytes m.mContentsType) ++
        m.body := by
    rw [Message.wire, List.drop_left' hid, List.append_assoc]
  have hshown :
      ((pad (HEADER_SIZE + BUFFER_SIZE) chunk).take m.wire.length).drop 4 =
        (pad HEADER_SIZE chunk).drop 4 ++
          (pad BUFFER_SIZE (chunk.drop HEADER_SIZE)).take m.body.length := by
    rw [pad_add, Message.length_wire, List.take_append, hpad,
      Nat.add_sub_cancel_left, List.take_of_length_le (by omega),
      List.drop_append_of_le_length (by simp [HEADER_SIZE])]
  rw [Shows, hshown, hwire]
  constructor
  · intro h
    exact List.append_inj h (by simp [HEADER_SIZE])
  · rintro ⟨hheader, hbody⟩
    rw [hheader, hbody]

/-- The size and the type that a header buffer decodes to. -/
theorem header_eq_iff {buf : List UInt8} (hlen : buf.length = HEADER_SIZE)
    {size type : ℕ} (hsize : size < 2 ^ 32) (htype : type < 2 ^ 32) :
    ntohl (MessageHeader.ofBuffer buf).mBodySize = size ∧
        ntohl (MessageHeader.ofBuffer buf).mContentsType = type ↔
      buf.drop 4 = networkBytes size ++ networkBytes type := by
  rw [HEADER_SIZE] at hlen
  have hlast : (buf.drop 8).take 4 = (buf.drop 4).drop 4 := by
    rw [List.drop_drop]
    exact List.take_of_length_le (by simp [hlen])
  simp only [MessageHeader.ofBuffer]
  rw [ntohl_eq_iff (by simp [hlen]) hsize, ntohl_eq_iff (by simp [hlen]) htype,
    hlast]
  constructor
  · rintro ⟨h1, h2⟩
    rw [← List.take_append_drop 4 (buf.drop 4), h1, h2]
  · intro h
    rw [h]
    exact ⟨List.take_left' (by simp), List.drop_left' (by simp)⟩

/-- The callback for a completion sees a message exactly when the completion
shows it. -/
theorem received_delivery_iff {o : CustomOverlapped} (ho : o.CleanTail)
    (slot : ℕ) (chunk : List UInt8) (m : Message) :
    Received.delivery
        (Session.received slot ((Client.receiveReady o).receive chunk)) =
      m.delivery ↔ Shows chunk m := by
  obtain ⟨hheader, hbody⟩ := (Client.blank_receiveReady ho).receive_bufs chunk
  have hbound : m.body.length < 2 ^ 32 := by
    have hle := m.body_le
    have hconst : BUFFER_SIZE < 2 ^ 32 := by
      simp [BUFFER_SIZE]
    omega
  rw [shows_iff,
    ← header_eq_iff (length_pad _ _) hbound m.contentsType_lt,
    Received.delivery, Message.delivery, Session.received, hheader, hbody,
    Delivery.mk.injEq]
  constructor
  · rintro ⟨h1, h2, h3⟩
    rw [h1] at h3
    exact ⟨⟨h1, h2⟩, h3⟩
  · rintro ⟨⟨h1, h2⟩, h3⟩
    rw [h1]
    exact ⟨rfl, h2, h3⟩

/-- The callbacks for the completions see the messages exactly when there are
as many of both and each completion shows its message. -/
theorem delivered_eq_iff {slot : ℕ}
    {arrivals : List (CustomOverlapped × List UInt8)}
    (hclean : ∀ arrival ∈ arrivals, arrival.1.CleanTail)
    (hpos : ∀ arrival ∈ arrivals, 0 < arrival.2.length)
    (messages : List Message) :
    delivered slot arrivals = messages.map Message.delivery ↔
      List.Forall₂ Shows (arrivals.map Prod.snd) messages := by
  induction arrivals generalizing messages with
  | nil => cases messages <;> simp [delivered]
  | cons arrival arrivals ih =>
      obtain ⟨o, chunk⟩ := arrival
      have ho : o.CleanTail := hclean (o, chunk) (by simp)
      have hchunk : ¬ chunk.length ≤ 0 := not_le.mpr (hpos (o, chunk) (by simp))
      have hrest := ih (fun a ha => hclean a (by simp [ha]))
        fun a ha => hpos a (by simp [ha])
      rw [delivered, if_neg hchunk]
      cases messages with
      | nil => simp
      | cons m messages =>
          rw [List.map_cons, List.cons.injEq, received_delivery_iff ho,
            hrest messages, List.map_cons, List.forall₂_cons]

/-! ## Which cuts work for all contents -/

/-- A completion that shows a message ending in a byte other than zero carries
all of it. -/
theorem Shows.length_le {chunk : List UInt8} {m : Message}
    (h : Shows chunk m) {b : UInt8} (hb : b ≠ 0)
    (hlast : m.wire.getLast? = some b) : m.wire.length ≤ chunk.length := by
  by_contra hlt
  have hlen := m.length_wire
  have hsize := m.body_le
  have hpos : 4 + (m.wire.length - 5) = m.wire.length - 1 := by
    rw [hlen, HEADER_SIZE]
    omega
  have hbyte := congrArg (fun bytes => bytes[m.wire.length - 5]?) h
  simp only [List.getElem?_drop, hpos] at hbyte
  rw [List.getElem?_take_of_lt (by rw [hlen, HEADER_SIZE]; omega),
    getElem?_pad chunk (by rw [hlen]; omega), ← List.getLast?_eq_getElem?,
    hlast, List.getElem?_eq_none (by omega)] at hbyte
  exact hb (Option.some.inj hbyte).symm

/-- Lists that are bounded by each other entry by entry and have the same sum
are equal. -/
theorem eq_of_forall₂_le {as bs : List ℕ} (hle : List.Forall₂ (· ≤ ·) as bs)
    (hsum : as.sum = bs.sum) : as = bs := by
  induction hle with
  | nil => rfl
  | cons hab htail ih =>
      have hrest := htail.sum_le_sum
      simp only [List.sum_cons] at hsum
      rw [ih (by omega)]
      congr 1
      omega

/-- A message of the given body size all of whose type and body bytes are
0xFF. -/
def solid (n : ℕ) : Message where
  mSocketId := 0
  mContentsType := 2 ^ 32 - 1
  body := List.replicate (min n BUFFER_SIZE) 255
  socketId_lt := by norm_num
  contentsType_lt := by norm_num
  body_le := by simp

theorem getLast?_wire_solid (n : ℕ) : (solid n).wire.getLast? = some 255 := by
  have htype : networkBytes (2 ^ 32 - 1) = List.replicate 4 255 := by decide
  rw [Message.wire]
  simp only [solid, htype, List.replicate_append_replicate,
    List.getLast?_append, List.getLast?_replicate]
  simp

/-- The completions of one slot, in the order of their arrival: the object
each arrived in, and its bytes. -/
structure Arrivals (messages : List Message)
    (arrivals : List (CustomOverlapped × List UInt8)) : Prop where
  clean : ∀ arrival ∈ arrivals, arrival.1.CleanTail
  isCut : IsCut messages (arrivals.map Prod.snd)

theorem Arrivals.delivered_eq_iff {messages : List Message}
    {arrivals : List (CustomOverlapped × List UInt8)}
    (h : Arrivals messages arrivals) (slot : ℕ) :
    delivered slot arrivals = messages.map Message.delivery ↔
      List.Forall₂ Shows (arrivals.map Prod.snd) messages := by
  apply Framing.delivered_eq_iff h.clean
  intro arrival harrival
  exact h.isCut.pos arrival.2 (List.mem_map_of_mem harrival)

/-- The lengths of the completions into which a stream of messages with the
given body sizes can be cut. -/
structure CutShape (bodySizes cuts : List ℕ) : Prop where
  body_le : ∀ n ∈ bodySizes, n ≤ BUFFER_SIZE
  sum_eq : cuts.sum = (bodySizes.map (HEADER_SIZE + ·)).sum
  pos : ∀ c ∈ cuts, 0 < c
  fits : ∀ c ∈ cuts, c ≤ HEADER_SIZE + BUFFER_SIZE

/-- Completions that carry one whole message each deliver the messages. -/
theorem Arrivals.delivered_of_whole {messages : List Message}
    {arrivals : List (CustomOverlapped × List UInt8)}
    (h : Arrivals messages arrivals) (slot : ℕ)
    (hwhole : arrivals.map (·.2.length) =
      (messages.map (·.body.length)).map (HEADER_SIZE + ·)) :
    delivered slot arrivals = messages.map Message.delivery := by
  rw [h.delivered_eq_iff]
  have hchunks : arrivals.map Prod.snd = messages.map Message.wire := by
    rw [List.eq_iff_flatten_eq]
    refine ⟨h.isCut.flatten_eq, ?_⟩
    simpa [Function.comp_def] using hwhole
  rw [hchunks, List.forall₂_map_left_iff, List.forall₂_same]
  intro m _
  have hlen := m.length_wire
  have hle := m.body_le
  rw [Shows, take_pad le_rfl (by omega), List.take_length]

/-- A stream of solid messages in completions of the given lengths. -/
def solidArrivals (bodySizes cuts : List ℕ) :
    List (CustomOverlapped × List UInt8) :=
  (cuts.splitLengths ((bodySizes.map solid).map Message.wire).flatten).map
    fun chunk => (CustomOverlapped.construct [] [], chunk)

theorem bodySize_solid {n : ℕ} (hn : n ≤ BUFFER_SIZE) :
    (solid n).body.length = n := by
  simpa [solid] using hn

theorem bodySizes_solid {bodySizes : List ℕ}
    (hle : ∀ n ∈ bodySizes, n ≤ BUFFER_SIZE) :
    (bodySizes.map solid).map (·.body.length) = bodySizes := by
  rw [List.map_map]
  exact (List.map_congr_left fun n hn => bodySize_solid (hle n hn)).trans
    (List.map_id' _)

theorem wireLengths_solid {bodySizes : List ℕ}
    (hle : ∀ n ∈ bodySizes, n ≤ BUFFER_SIZE) :
    bodySizes.map (fun n => (solid n).wire.length) =
      bodySizes.map (HEADER_SIZE + ·) := by
  apply List.map_congr_left
  intro n hn
  rw [Message.length_wire, bodySize_solid (hle n hn)]

theorem arrivals_solid {bodySizes cuts : List ℕ}
    (hshape : CutShape bodySizes cuts) :
    Arrivals (bodySizes.map solid) (solidArrivals bodySizes cuts) ∧
      (solidArrivals bodySizes cuts).map (·.2.length) = cuts := by
  have hlength : ((bodySizes.map solid).map Message.wire).flatten.length =
      cuts.sum := by
    rw [hshape.sum_eq, ← wireLengths_solid hshape.body_le]
    simp only [List.length_flatten, List.map_map]
    rfl
  have hchunks : (solidArrivals bodySizes cuts).map Prod.snd =
      cuts.splitLengths ((bodySizes.map solid).map Message.wire).flatten := by
    simp [solidArrivals, Function.comp_def]
  have hlengths : ((solidArrivals bodySizes cuts).map Prod.snd).map
      List.length = cuts := by
    rw [hchunks, List.map_splitLengths_length _ _ hlength.ge]
  refine ⟨⟨?_, ?_, ?_, ?_⟩, ?_⟩
  · intro arrival harrival
    obtain ⟨chunk, -, rfl⟩ := List.mem_map.mp harrival
    exact CustomOverlapped.cleanTail_construct [] []
  · rw [hchunks, List.flatten_splitLengths _ _ hlength.le]
  · intro chunk hchunk
    apply hshape.pos
    rw [← hlengths]
    exact List.mem_map_of_mem hchunk
  · intro chunk hchunk
    apply hshape.fits
    rw [← hlengths]
    exact List.mem_map_of_mem hchunk
  · rw [List.map_map] at hlengths
    exact hlengths

/-- Other cuts do not deliver messages all of whose bytes matter. -/
theorem cuts_eq_of_delivered {bodySizes cuts : List ℕ}
    (hshape : CutShape bodySizes cuts) {slot : ℕ}
    (hdelivered : delivered slot (solidArrivals bodySizes cuts) =
      (bodySizes.map solid).map Message.delivery) :
    cuts = bodySizes.map (HEADER_SIZE + ·) := by
  obtain ⟨harrivals, hcuts⟩ := arrivals_solid hshape
  have hshows := (harrivals.delivered_eq_iff slot).mp hdelivered
  rw [List.forall₂_map_left_iff, List.forall₂_map_right_iff] at hshows
  have hle : List.Forall₂ (· ≤ ·)
      (bodySizes.map fun n => (solid n).wire.length) cuts := by
    rw [← hcuts, List.forall₂_map_left_iff, List.forall₂_map_right_iff]
    apply hshows.flip.imp
    intro n arrival hshow
    exact Shows.length_le hshow (by decide) (getLast?_wire_solid n)
  rw [wireLengths_solid hshape.body_le] at hle
  exact (eq_of_forall₂_le hle hshape.sum_eq.symm).symm

/-! ## When the callbacks see the messages -/

/-- For one stream the callbacks see the messages exactly when the completions
show them one by one.  A cut of the stream does so for all contents of the
messages exactly when every completion is one whole message. -/
theorem delivered_iff_whole_messages (slot : ℕ) :
    (∀ messages arrivals, Arrivals messages arrivals →
      (delivered slot arrivals = messages.map Message.delivery ↔
        List.Forall₂ Shows (arrivals.map Prod.snd) messages)) ∧
    ∀ bodySizes cuts, CutShape bodySizes cuts →
      ((∀ messages arrivals, Arrivals messages arrivals →
          messages.map (·.body.length) = bodySizes →
          arrivals.map (·.2.length) = cuts →
          delivered slot arrivals = messages.map Message.delivery) ↔
        cuts = bodySizes.map (HEADER_SIZE + ·)) := by
  constructor
  · intro messages arrivals h
    exact h.delivered_eq_iff slot
  · intro bodySizes cuts hshape
    constructor
    · intro hall
      obtain ⟨harrivals, hcuts⟩ := arrivals_solid hshape
      apply cuts_eq_of_delivered hshape
      exact hall _ _ harrivals (bodySizes_solid hshape.body_le) hcuts
    · rintro rfl messages arrivals h rfl hcuts
      exact h.delivered_of_whole slot hcuts

/-- A `REQUEST_PLAYER_RANKING` for the player `A`. -/
def rankingRequest : Message where
  mSocketId := 1
  mContentsType := 3
  body := [12, 0, 0, 0, 0, 0, 6, 0, 8, 0, 4, 0, 6, 0, 0, 0, 4, 0, 0, 0,
    1, 0, 0, 0, 65, 0, 0, 0]
  socketId_lt := by decide
  contentsType_lt := by decide
  body_le := by decide

/-- The request, cut into completions of a server whose pool is new. -/
def rankingArrivals (chunks : List (List UInt8)) :
    List (CustomOverlapped × List UInt8) :=
  chunks.map fun chunk => (CustomOverlapped.construct [] [], chunk)

theorem arrivals_rankingRequest (chunks : List (List UInt8))
    (hflatten : chunks.flatten = rankingRequest.wire)
    (hpos : ∀ chunk ∈ chunks, 0 < chunk.length) :
    Arrivals [rankingRequest] (rankingArrivals chunks) := by
  have hchunks : (rankingArrivals chunks).map Prod.snd = chunks := by
    simp [rankingArrivals, Function.comp_def]
  constructor
  · intro arrival harrival
    obtain ⟨chunk, -, rfl⟩ := List.mem_map.mp harrival
    exact CustomOverlapped.cleanTail_construct [] []
  · rw [hchunks]
    refine ⟨by simpa using hflatten, hpos, fun chunk hchunk => ?_⟩
    have hsub := (List.sublist_flatten_of_mem hchunk).length_le
    rw [hflatten] at hsub
    have hlen : rankingRequest.wire.length = 40 := by decide
    simp only [HEADER_SIZE, BUFFER_SIZE]
    omega

theorem delivered_rankingRequest :
    delivered 1 (rankingArrivals [rankingRequest.wire]) =
        [rankingRequest.delivery] ∧
      List.Forall₂ Shows [rankingRequest.wire] [rankingRequest] := by
  have harrivals := arrivals_rankingRequest [rankingRequest.wire]
    (by simp) (by decide)
  have hshape : CutShape [28] [40] :=
    ⟨by decide, by decide, by decide, by decide⟩
  have hdelivered := ((delivered_iff_whole_messages 1).2 _ _ hshape).mpr rfl
    _ _ harrivals rfl rfl
  exact ⟨hdelivered,
    ((delivered_iff_whole_messages 1).1 _ _ harrivals).mp hdelivered⟩

/-- A request whose body arrives after its header is handled twice. -/
theorem not_delivered_of_split :
    ¬ ∀ slot messages arrivals, Arrivals messages arrivals →
      delivered slot arrivals = messages.map Message.delivery := by
  intro hall
  have harrivals := arrivals_rankingRequest
    [rankingRequest.wire.take 12, rankingRequest.wire.drop 12]
    (by simp) (by decide)
  have hcount := congrArg List.length (hall 1 _ _ harrivals)
  revert hcount
  decide

end RankingServer.Network.Framing
