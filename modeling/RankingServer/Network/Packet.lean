import RankingServer.Foundation.Scalar

/-!
# Message headers and overlapped operations

`MyPacket.h`: the 12-byte header in front of every message and
`CustomOverlapped`, the object that carries one asynchronous operation.  Its two
WSABUFs are a header buffer of 12 bytes and a body buffer of `BUFFER_SIZE`
bytes; the lengths kept beside them say how much of each the next operation
uses.  The server runs on a little-endian machine, so the members of a
`MessageHeader` lie in memory with their low byte first.

The socket pointer and the event handle of the object are left out: no modelled
function reads them.
-/

namespace RankingServer.Network

open Scalar

/-- `BUFFER_SIZE` -/
def BUFFER_SIZE : ℕ := 1024

/-- `sizeof(MessageHeader)` -/
def HEADER_SIZE : ℕ := 12

/-- `OperationType` -/
inductive OperationType
  | opDefault
  | opAccept
  | opRecv
  | opSend
deriving DecidableEq, Repr

/-- `MessageHeader` -/
structure MessageHeader where
  mSocketId : ℕ
  mBodySize : ℕ
  mContentsType : ℕ
deriving DecidableEq, Repr

/-- `htonl` and `ntohl` on a little-endian machine: the number whose bytes are
those of `n` in the opposite order. -/
def htonl (n : ℕ) : ℕ := ofBytes (toBytes 4 n).reverse

/-- `ntohl` -/
def ntohl (n : ℕ) : ℕ := htonl n

/-- The four bytes of `n` in network order. -/
def networkBytes (n : ℕ) : List UInt8 := (toBytes 4 n).reverse

@[simp] theorem length_networkBytes (n : ℕ) : (networkBytes n).length = 4 := by
  simp [networkBytes]

/-- `htonl` stores a number in network order. -/
@[simp] theorem toBytes_htonl (n : ℕ) :
    toBytes 4 (htonl n) = networkBytes n := by
  have hlen : (toBytes 4 n).reverse.length = 4 := by simp
  have himage := toBytes_ofBytes (toBytes 4 n).reverse
  rw [hlen] at himage
  exact himage

/-- `ntohl` of the number stored in network order. -/
theorem ntohl_networkBytes {n : ℕ} (hn : n < 2 ^ 32) :
    ntohl (ofBytes (networkBytes n)) = n := by
  have hfit : n < 256 ^ 4 := by
    have : (256 : ℕ) ^ 4 = 2 ^ 32 := by norm_num
    omega
  have himage : toBytes 4 (ofBytes (networkBytes n)) = networkBytes n :=
    toBytes_htonl n
  rw [ntohl, htonl, himage, networkBytes, List.reverse_reverse,
    ofBytes_toBytes hfit]

namespace MessageHeader

/-- The object representation of a header. -/
def bytes (header : MessageHeader) : List UInt8 :=
  toBytes 4 header.mSocketId ++ toBytes 4 header.mBodySize ++
    toBytes 4 header.mContentsType

@[simp] theorem length_bytes (header : MessageHeader) :
    header.bytes.length = HEADER_SIZE := by
  simp [bytes, HEADER_SIZE]

/-- `reinterpret_cast<MessageHeader*>(buf)` -/
def ofBuffer (buf : List UInt8) : MessageHeader where
  mSocketId := ofBytes (buf.take 4)
  mBodySize := ofBytes ((buf.drop 4).take 4)
  mContentsType := ofBytes ((buf.drop 8).take 4)

theorem ofBuffer_append {a b c : List UInt8} (rest : List UInt8)
    (ha : a.length = 4) (hb : b.length = 4) (hc : c.length = 4) :
    ofBuffer (a ++ b ++ c ++ rest) = ⟨ofBytes a, ofBytes b, ofBytes c⟩ := by
  have h1 : (a ++ b ++ c ++ rest).take 4 = a := by
    simp [ha]
  have h2 : ((a ++ b ++ c ++ rest).drop 4).take 4 = b := by
    simp [ha, hb]
  have h3 : ((a ++ b ++ c ++ rest).drop 8).take 4 = c := by
    simp [List.take_append, List.drop_append, ha, hb, hc]
  rw [ofBuffer, h1, h2, h3]

/-- Reading back the object representation of a header. -/
theorem ofBuffer_bytes {header : MessageHeader}
    (hid : header.mSocketId < 2 ^ 32) (hsize : header.mBodySize < 2 ^ 32)
    (htype : header.mContentsType < 2 ^ 32) :
    ofBuffer header.bytes = header := by
  have hpow : (256 : ℕ) ^ 4 = 2 ^ 32 := by norm_num
  have hlen (n : ℕ) : (toBytes 4 n).length = 4 := length_toBytes 4 n
  have happend := ofBuffer_append [] (hlen header.mSocketId)
    (hlen header.mBodySize) (hlen header.mContentsType)
  rw [List.append_nil] at happend
  rw [bytes, happend, ofBytes_toBytes (hpow ▸ hid),
    ofBytes_toBytes (hpow ▸ hsize), ofBytes_toBytes (hpow ▸ htype)]

end MessageHeader

/-- `CustomOverlapped`: the bytes of the two buffers, the two lengths and the
operation type.  The last fields record the sizes the buffers are allocated
with. -/
structure CustomOverlapped where
  headerBuf : List UInt8
  headerLen : ℕ
  bodyBuf : List UInt8
  bodyLen : ℕ
  mOperationType : OperationType
  length_headerBuf : headerBuf.length = HEADER_SIZE
  length_bodyBuf : bodyBuf.length = BUFFER_SIZE

namespace CustomOverlapped

/-- The constructor; `new char[...]` leaves the contents of the buffers
undetermined. -/
def construct (headerGarbage bodyGarbage : List UInt8) : CustomOverlapped where
  headerBuf := pad HEADER_SIZE headerGarbage
  headerLen := HEADER_SIZE
  bodyBuf := pad BUFFER_SIZE bodyGarbage
  bodyLen := BUFFER_SIZE
  mOperationType := .opDefault
  length_headerBuf := length_pad _ _
  length_bodyBuf := length_pad _ _

/-- `SetHeader`: the header buffer is replaced by a copy of the header. -/
def setHeader (o : CustomOverlapped) (headerData : MessageHeader) :
    CustomOverlapped :=
  { o with
    headerBuf := headerData.bytes
    headerLen := HEADER_SIZE
    length_headerBuf := headerData.length_bytes }

/-- The bytes of `buf` after `memset(buf, 0, n)`, as far as they belong to
`buf`. -/
def wipe (n : ℕ) (buf : List UInt8) : List UInt8 :=
  List.replicate (min n buf.length) 0 ++ buf.drop n

@[simp] theorem length_wipe (n : ℕ) (buf : List UInt8) :
    (wipe n buf).length = buf.length := by
  simp only [wipe, List.length_append, List.length_replicate,
    List.length_drop]
  omega

/-- `SetBody`: the first `bodyLen` bytes are wiped before the length is checked,
and a refused body leaves the recorded length unchanged. -/
def setBody (o : CustomOverlapped) (bodyBuffer : List UInt8) (bodyLen : ℕ) :
    CustomOverlapped :=
  if h : bodyLen > BUFFER_SIZE then
    { o with
      bodyBuf := wipe bodyLen o.bodyBuf
      length_bodyBuf := by rw [length_wipe, o.length_bodyBuf] }
  else
    { o with
      bodyBuf := pad bodyLen bodyBuffer ++ o.bodyBuf.drop bodyLen
      bodyLen := bodyLen
      length_bodyBuf := by
        simp only [List.length_append, length_pad, List.length_drop,
          o.length_bodyBuf]
        omega }

/-- `SetOperationType` -/
def setOperationType (o : CustomOverlapped) (operationType : OperationType) :
    CustomOverlapped :=
  { o with mOperationType := operationType }

/-- `Clear`: the body is wiped as far as the recorded length. -/
def clear (o : CustomOverlapped) : CustomOverlapped where
  headerBuf := List.replicate HEADER_SIZE 0
  headerLen := HEADER_SIZE
  bodyBuf := wipe o.bodyLen o.bodyBuf
  bodyLen := BUFFER_SIZE
  mOperationType := .opDefault
  length_headerBuf := List.length_replicate
  length_bodyBuf := by rw [length_wipe, o.length_bodyBuf]

/-! ## Writes by the operating system -/

/-- `buf` with its first bytes replaced by `data`. -/
def overwrite (data buf : List UInt8) : List UInt8 :=
  data.take buf.length ++ buf.drop data.length

@[simp] theorem length_overwrite (data buf : List UInt8) :
    (overwrite data buf).length = buf.length := by
  simp only [overwrite, List.length_append, List.length_take,
    List.length_drop]
  omega

/-- A receive scatters the bytes that arrived over the two buffers, as far as
their lengths allow. -/
def receive (o : CustomOverlapped) (data : List UInt8) : CustomOverlapped :=
  { o with
    headerBuf := overwrite (data.take o.headerLen) o.headerBuf
    bodyBuf := overwrite ((data.drop o.headerLen).take o.bodyLen) o.bodyBuf
    length_headerBuf := by rw [length_overwrite, o.length_headerBuf]
    length_bodyBuf := by rw [length_overwrite, o.length_bodyBuf] }

/-- An accept writes the two socket addresses into the output buffer it was
given, which is the body buffer. -/
def acceptAddresses (o : CustomOverlapped) (addresses : List UInt8) :
    CustomOverlapped :=
  { o with
    bodyBuf := overwrite addresses o.bodyBuf
    length_bodyBuf := by rw [length_overwrite, o.length_bodyBuf] }

/-- The bytes a send puts on the wire: both buffers up to their lengths. -/
def wire (o : CustomOverlapped) : List UInt8 :=
  o.headerBuf.take o.headerLen ++ o.bodyBuf.take o.bodyLen

/-! ## Objects that are clean behind their body length -/

/-- Every byte of the body buffer from the recorded length on is zero, and the
length stays within the buffer. -/
structure CleanTail (o : CustomOverlapped) : Prop where
  bodyLen_le : o.bodyLen ≤ BUFFER_SIZE
  tail_zero :
    o.bodyBuf.drop o.bodyLen = List.replicate (BUFFER_SIZE - o.bodyLen) 0

/-- All bytes of both buffers are zero and the lengths are those of the
buffers. -/
structure Blank (o : CustomOverlapped) : Prop where
  header : o.headerBuf = List.replicate HEADER_SIZE 0
  headerLen : o.headerLen = HEADER_SIZE
  body : o.bodyBuf = List.replicate BUFFER_SIZE 0
  bodyLen : o.bodyLen = BUFFER_SIZE

theorem cleanTail_of_bodyLen {o : CustomOverlapped}
    (h : o.bodyLen = BUFFER_SIZE) : o.CleanTail where
  bodyLen_le := h.le
  tail_zero := by
    rw [h, ← o.length_bodyBuf, List.drop_length]
    simp

theorem cleanTail_construct (headerGarbage bodyGarbage : List UInt8) :
    (construct headerGarbage bodyGarbage).CleanTail :=
  cleanTail_of_bodyLen rfl

/-- `Clear` wipes an object whose tail is clean completely. -/
theorem CleanTail.blank_clear {o : CustomOverlapped} (h : o.CleanTail) :
    o.clear.Blank where
  header := rfl
  headerLen := rfl
  body := by
    have hlen := o.length_bodyBuf
    have hle := h.bodyLen_le
    simp only [clear, wipe]
    rw [h.tail_zero, List.replicate_append_replicate]
    congr 1
    omega
  bodyLen := rfl

theorem Blank.cleanTail {o : CustomOverlapped} (h : o.Blank) : o.CleanTail :=
  cleanTail_of_bodyLen h.bodyLen

/-- `SetBody` keeps the tail clean when the whole body was wiped before. -/
theorem cleanTail_setBody {o : CustomOverlapped}
    (hbody : o.bodyBuf = List.replicate BUFFER_SIZE 0)
    (hlen : o.bodyLen = BUFFER_SIZE) (bodyBuffer : List UInt8) (bodyLen : ℕ) :
    (o.setBody bodyBuffer bodyLen).CleanTail := by
  rw [setBody]
  split
  · exact cleanTail_of_bodyLen hlen
  · next hfit =>
      refine ⟨not_lt.mp hfit, ?_⟩
      have hpad : (pad bodyLen bodyBuffer).length = bodyLen := length_pad _ _
      change List.drop bodyLen (pad bodyLen bodyBuffer ++ _) =
        List.replicate (BUFFER_SIZE - bodyLen) 0
      rw [List.drop_left' hpad, hbody, List.drop_replicate]

@[simp] theorem headerBuf_setBody (o : CustomOverlapped)
    (bodyBuffer : List UInt8) (bodyLen : ℕ) :
    (o.setBody bodyBuffer bodyLen).headerBuf = o.headerBuf := by
  rw [setBody]
  split <;> rfl

@[simp] theorem headerLen_setBody (o : CustomOverlapped)
    (bodyBuffer : List UInt8) (bodyLen : ℕ) :
    (o.setBody bodyBuffer bodyLen).headerLen = o.headerLen := by
  rw [setBody]
  split <;> rfl

/-- The body buffer and its length after `SetBody` accepted a body. -/
theorem setBody_of_fits (o : CustomOverlapped) (body : List UInt8) {n : ℕ}
    (hfit : n ≤ BUFFER_SIZE) :
    (o.setBody body n).bodyBuf = pad n body ++ o.bodyBuf.drop n ∧
      (o.setBody body n).bodyLen = n := by
  rw [setBody, dif_neg (not_lt.mpr hfit)]
  exact ⟨rfl, rfl⟩

/-- The body that goes out after `SetBody` accepted it. -/
theorem take_setBody (o : CustomOverlapped) {body : List UInt8}
    (hfit : body.length ≤ BUFFER_SIZE) :
    (o.setBody body body.length).bodyBuf.take
        (o.setBody body body.length).bodyLen = body := by
  obtain ⟨hbuf, hlen⟩ := o.setBody_of_fits body hfit
  rw [hbuf, hlen, pad_of_length rfl, List.take_left']
  rfl

/-- A receive into a cleared object shows exactly the bytes that arrived,
followed by zeros. -/
theorem Blank.receive_bufs {o : CustomOverlapped} (h : o.Blank)
    (data : List UInt8) :
    (o.receive data).headerBuf = pad HEADER_SIZE data ∧
      (o.receive data).bodyBuf = pad BUFFER_SIZE (data.drop HEADER_SIZE) := by
  have hover (n : ℕ) (bs : List UInt8) :
      overwrite (bs.take n) (List.replicate n 0) = pad n bs := by
    rw [overwrite, pad, List.length_replicate, List.take_take, Nat.min_self,
      List.drop_replicate, List.length_take]
    congr 2
    omega
  constructor
  · change overwrite (data.take o.headerLen) o.headerBuf = _
    rw [h.headerLen, h.header]
    exact hover HEADER_SIZE data
  · change overwrite ((data.drop o.headerLen).take o.bodyLen) o.bodyBuf = _
    rw [h.headerLen, h.bodyLen, h.body]
    exact hover BUFFER_SIZE (data.drop HEADER_SIZE)

end CustomOverlapped

end RankingServer.Network
