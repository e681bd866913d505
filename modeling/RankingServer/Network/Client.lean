import RankingServer.Network.Packet

/-!
# The objects of a client's operations

What `Client::AcceptReady`, `Client::ReceiveReady` and `Client::Send` write into
the object they popped before they hand it to the system, and what
`Session::Process` reads from the object of a completion.  Where the objects
come from and where they go is the subject of `RankingServer.Network.Server`.
-/

namespace RankingServer.Network

/-- The arguments that `Session::Process` passes to the receive callback. -/
structure Received where
  socketId : ℕ
  bodySize : ℕ
  contentsType : ℕ
  bodyBuffer : List UInt8
deriving DecidableEq, Repr

namespace Client

open CustomOverlapped

/-- The object `AcceptReady` passes to `AcceptEx`. -/
def acceptReady (mSocketId : ℕ) (o : CustomOverlapped) : CustomOverlapped :=
  (o.clear.setOperationType .opAccept).setHeader ⟨mSocketId, 0, 0⟩

/-- The object `ReceiveReady` passes to `WSARecv`. -/
def receiveReady (o : CustomOverlapped) : CustomOverlapped :=
  o.clear.setOperationType .opRecv

/-- The object `Send` passes to `WSASend`. -/
def send (header : MessageHeader) (bodyBuffer : List UInt8) (bodySize : ℕ)
    (o : CustomOverlapped) : CustomOverlapped :=
  ((o.clear.setOperationType .opSend).setHeader header).setBody
    bodyBuffer bodySize

theorem blank_setOperationType {o : CustomOverlapped} (h : o.Blank)
    (operationType : OperationType) :
    (o.setOperationType operationType).Blank :=
  ⟨h.header, h.headerLen, h.body, h.bodyLen⟩

theorem blank_receiveReady {o : CustomOverlapped} (h : o.CleanTail) :
    (receiveReady o).Blank :=
  blank_setOperationType h.blank_clear .opRecv

theorem cleanTail_receiveReady {o : CustomOverlapped} (h : o.CleanTail) :
    (receiveReady o).CleanTail :=
  (blank_receiveReady h).cleanTail

theorem cleanTail_acceptReady (mSocketId : ℕ) (o : CustomOverlapped) :
    (acceptReady mSocketId o).CleanTail :=
  cleanTail_of_bodyLen rfl

theorem cleanTail_send (header : MessageHeader) (bodyBuffer : List UInt8)
    (bodySize : ℕ) {o : CustomOverlapped} (h : o.CleanTail) :
    (send header bodyBuffer bodySize o).CleanTail :=
  cleanTail_setBody (o := (o.clear.setOperationType .opSend).setHeader header)
    h.blank_clear.body h.blank_clear.bodyLen _ _

end Client

namespace Session

/-- The client index that the accept branch of `Process` looks up. -/
def acceptedSlot (o : CustomOverlapped) : ℕ :=
  (MessageHeader.ofBuffer o.headerBuf).mSocketId

/-- The arguments of the receive callback in the receive branch of `Process`. -/
def received (completionKey : ℕ) (o : CustomOverlapped) : Received where
  socketId := completionKey
  bodySize := ntohl (MessageHeader.ofBuffer o.headerBuf).mBodySize
  contentsType := ntohl (MessageHeader.ofBuffer o.headerBuf).mContentsType
  bodyBuffer := o.bodyBuf

/-- The accept branch finds the client that posted the accept. -/
theorem acceptedSlot_acceptReady {slot : ℕ} (hslot : slot < 2 ^ 32)
    (o : CustomOverlapped) :
    acceptedSlot (Client.acceptReady slot o) = slot := by
  have hzero : (0 : ℕ) < 2 ^ 32 := by norm_num
  change (MessageHeader.ofBuffer
    (MessageHeader.bytes ⟨slot, 0, 0⟩)).mSocketId = slot
  rw [MessageHeader.ofBuffer_bytes hslot hzero hzero]

end Session

end RankingServer.Network
