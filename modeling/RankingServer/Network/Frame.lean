import RankingServer.Network.Recycling

/-!
# Frames

A frame is what `Client::Send` hands to `WSASend`: the two buffers of an object,
each as far as its length.  `SetBody` wipes as many bytes as the body is said to
have before it looks at the number, and does not tell its caller when it refuses
the body.
-/

namespace RankingServer.Network

open CustomOverlapped Scalar Transition

/-! ## The writes of `SetBody` -/

/-- `memcpy(buf, data, ...)` as writes of bytes at indices of `buf`. -/
def memcpy (data : List UInt8) : List (ℕ × UInt8) :=
  data.zipIdx.map Prod.swap

/-- `memset(buf, 0, n)` -/
def memset (n : ℕ) : List (ℕ × UInt8) := memcpy (List.replicate n 0)

/-- The writes of `SetBody` to the body buffer, in their order. -/
def setBodyWrites (bodyBuffer : List UInt8) (bodyLen : ℕ) :
    List (ℕ × UInt8) :=
  memset bodyLen ++
    if bodyLen > BUFFER_SIZE then [] else memcpy (pad bodyLen bodyBuffer)

/-- A buffer after some writes; those behind its end go elsewhere. -/
def writeAll (writes : List (ℕ × UInt8)) (buf : List UInt8) : List UInt8 :=
  writes.foldl (fun buf write => buf.set write.1 write.2) buf

theorem writeAll_append (writes writes' : List (ℕ × UInt8))
    (buf : List UInt8) :
    writeAll (writes ++ writes') buf = writeAll writes' (writeAll writes buf) :=
  List.foldl_append

theorem overwrite_cons_cons (b c : UInt8) (data buf : List UInt8) :
    overwrite (b :: data) (c :: buf) = b :: overwrite data buf := by
  simp [overwrite]

theorem overwrite_of_le {data buf : List UInt8}
    (h : data.length ≤ buf.length) :
    overwrite data buf = data ++ buf.drop data.length := by
  rw [overwrite, List.take_of_length_le h]

/-- Bytes that are written one after the other from an index on. -/
theorem writeAll_zipIdx (data buf : List UInt8) (k : ℕ) :
    writeAll ((data.zipIdx k).map Prod.swap) buf =
      buf.take k ++ overwrite data (buf.drop k) := by
  induction data generalizing k buf with
  | nil => simp [writeAll, overwrite]
  | cons b data ih =>
      change writeAll ((data.zipIdx (k + 1)).map Prod.swap) (buf.set k b) = _
      rw [ih, List.drop_set_of_lt (Nat.lt_succ_self k)]
      by_cases hk : k < buf.length
      · rw [List.take_add_one, List.take_set_of_le (Nat.le_refl k),
          List.getElem?_set_self hk, List.drop_eq_getElem_cons hk,
          overwrite_cons_cons]
        simp
      · have hdrop : buf.drop k = [] := List.drop_eq_nil_of_le (not_lt.mp hk)
        have hdrop' : buf.drop (k + 1) = [] :=
          List.drop_eq_nil_of_le (by omega)
        rw [hdrop, hdrop', List.set_eq_of_length_le (not_lt.mp hk),
          List.take_of_length_le (by omega), List.take_of_length_le (by omega)]
        simp [overwrite]

theorem writeAll_memcpy (data buf : List UInt8) :
    writeAll (memcpy data) buf = overwrite data buf := by
  rw [memcpy, writeAll_zipIdx]
  rfl

theorem mem_memcpy {data : List UInt8} {write : ℕ × UInt8} :
    write ∈ memcpy data ↔ data[write.1]? = some write.2 := by
  rw [memcpy, List.mem_map]
  constructor
  · rintro ⟨⟨b, i⟩, hmem, rfl⟩
    exact List.mk_mem_zipIdx_iff_getElem?.mp hmem
  · intro h
    exact ⟨write.swap, List.mk_mem_zipIdx_iff_getElem?.mpr h, write.swap_swap⟩

/-- The copy of a string writes at the indices below its length. -/
theorem lt_of_mem_memcpy {data : List UInt8} {write : ℕ × UInt8}
    (h : write ∈ memcpy data) : write.1 < data.length :=
  (List.getElem?_eq_some_iff.mp (mem_memcpy.mp h)).1

/-- The writes that stay in the buffer make of it what `SetBody` leaves. -/
theorem bodyBuf_setBody (o : CustomOverlapped) (bodyBuffer : List UInt8)
    (bodyLen : ℕ) :
    (o.setBody bodyBuffer bodyLen).bodyBuf =
      writeAll (setBodyWrites bodyBuffer bodyLen) o.bodyBuf := by
  rw [setBodyWrites, writeAll_append, memset, writeAll_memcpy, setBody]
  split
  · next hrefused =>
      change wipe bodyLen o.bodyBuf = writeAll [] _
      rw [wipe, overwrite, List.take_replicate, List.length_replicate,
        Nat.min_comm]
      rfl
  · next hfits =>
      have hle : bodyLen ≤ o.bodyBuf.length :=
        (not_lt.mp hfits).trans o.length_bodyBuf.ge
      have hwiped : overwrite (List.replicate bodyLen 0) o.bodyBuf =
          List.replicate bodyLen 0 ++ o.bodyBuf.drop bodyLen := by
        rw [overwrite_of_le (by simpa using hle), List.length_replicate]
      change pad bodyLen bodyBuffer ++ o.bodyBuf.drop bodyLen = _
      rw [writeAll_memcpy, overwrite_of_le (by simpa using hle), hwiped,
        length_pad, List.drop_left' List.length_replicate]

/-! ## What goes out -/

/-- The two buffers that `WSASend` is given. -/
structure Frame where
  header : List UInt8
  body : List UInt8
deriving DecidableEq, Repr

/-- The size that the header announces. -/
def Frame.bodySize (frame : Frame) : ℕ :=
  ntohl (MessageHeader.ofBuffer frame.header).mBodySize

/-- The buffers of an object, as far as their lengths. -/
def CustomOverlapped.frame (o : CustomOverlapped) : Frame :=
  ⟨o.headerBuf.take o.headerLen, o.bodyBuf.take o.bodyLen⟩

/-- What `Client::Send` hands to `WSASend` when it pops the object `o`: one
frame, whatever `SetBody` did. -/
def Client.frames (header : MessageHeader) (bodyBuffer : List UInt8)
    (bodySize : ℕ) (o : CustomOverlapped) : List Frame :=
  [(Client.send header bodyBuffer bodySize o).frame]

/-- The frames of `NetworkManager::Send` to an existing client. -/
def NetworkManager.frames (socketId contentsType : ℕ)
    (bodyBuffer : List UInt8) (bodySize : ℕ) (o : CustomOverlapped) :
    List Frame :=
  Client.frames ⟨htonl socketId, htonl bodySize, htonl contentsType⟩ bodyBuffer
    bodySize o

theorem NetworkManager.frames_length (socketId contentsType : ℕ)
    (bodyBuffer : List UInt8) (o : CustomOverlapped) :
    NetworkManager.frames socketId contentsType bodyBuffer bodyBuffer.length o =
      [(NetworkManager.send socketId contentsType bodyBuffer o).frame] :=
  rfl

/-- The header that goes out with a body of `bodySize` bytes. -/
def NetworkManager.header (socketId bodySize contentsType : ℕ) : List UInt8 :=
  networkBytes socketId ++ networkBytes bodySize ++ networkBytes contentsType

/-- The frame of a send whose body is not refused. -/
theorem NetworkManager.frames_of_fits (socketId contentsType : ℕ)
    (bodyBuffer : List UInt8) {bodySize : ℕ} (hfits : bodySize ≤ BUFFER_SIZE)
    (o : CustomOverlapped) :
    frames socketId contentsType bodyBuffer bodySize o =
      [⟨header socketId bodySize contentsType, pad bodySize bodyBuffer⟩] := by
  obtain ⟨hbuf, hlen⟩ :=
    ((o.clear.setOperationType .opSend).setHeader
      ⟨htonl socketId, htonl bodySize, htonl contentsType⟩).setBody_of_fits
        bodyBuffer hfits
  rw [frames, Client.frames, Client.send, frame, headerBuf_setBody,
    headerLen_setBody, hbuf, hlen, List.take_left' (length_pad _ _)]
  simp [setHeader, MessageHeader.bytes, HEADER_SIZE, header]

/-- What is expected of a send with the given length: the body buffer is not
written behind its end, a refused body leaves no trace, and the header of what
goes out announces the body that goes out. -/
structure Contained (socketId contentsType : ℕ) (bodyBuffer : List UInt8)
    (bodySize : ℕ) (o : CustomOverlapped) : Prop where
  within : ∀ write ∈ setBodyWrites bodyBuffer bodySize, write.1 < BUFFER_SIZE
  refused : bodySize > BUFFER_SIZE →
    (o.setBody bodyBuffer bodySize).bodyBuf = o.bodyBuf ∧
      (o.setBody bodyBuffer bodySize).bodyLen = o.bodyLen ∧
      NetworkManager.frames socketId contentsType bodyBuffer bodySize o = []
  announced : ∀ frame ∈
      NetworkManager.frames socketId contentsType bodyBuffer bodySize o,
    frame.bodySize = frame.body.length

theorem NetworkManager.ofBuffer_header (socketId bodySize contentsType : ℕ) :
    MessageHeader.ofBuffer (header socketId bodySize contentsType) =
      ⟨ofBytes (networkBytes socketId), ofBytes (networkBytes bodySize),
        ofBytes (networkBytes contentsType)⟩ := by
  have hfields :=
    MessageHeader.ofBuffer_append [] (length_networkBytes socketId)
      (length_networkBytes bodySize) (length_networkBytes contentsType)
  rwa [List.append_nil] at hfields

theorem bodySize_header (socketId contentsType : ℕ) {bodySize : ℕ}
    (hsize : bodySize < 2 ^ 32) (body : List UInt8) :
    Frame.bodySize
        ⟨NetworkManager.header socketId bodySize contentsType, body⟩ =
      bodySize := by
  rw [Frame.bodySize, NetworkManager.ofBuffer_header]
  exact ntohl_networkBytes hsize

/-- The write that a body of more than `BUFFER_SIZE` bytes makes behind the end
of the buffer. -/
theorem exists_write_outside (bodyBuffer : List UInt8) {bodySize : ℕ}
    (h : bodySize > BUFFER_SIZE) :
    (BUFFER_SIZE, 0) ∈ setBodyWrites bodyBuffer bodySize := by
  refine List.mem_append_left _ (mem_memcpy.mpr ?_)
  rw [List.getElem?_replicate, if_pos h]

/-- A send keeps to the buffer and to what it announces just when the body is
not longer than the buffer. -/
theorem contained_iff (socketId contentsType : ℕ) (bodyBuffer : List UInt8)
    (bodySize : ℕ) (o : CustomOverlapped) :
    Contained socketId contentsType bodyBuffer bodySize o ↔
      bodySize ≤ BUFFER_SIZE := by
  constructor
  · intro h
    by_contra hlong
    exact lt_irrefl BUFFER_SIZE
      (h.within _ (exists_write_outside bodyBuffer (not_le.mp hlong)))
  · intro hfits
    refine ⟨fun write hwrite => ?_,
      fun hlong => absurd hlong (not_lt.mpr hfits),
      fun frame hframe => ?_⟩
    · rw [setBodyWrites, if_neg (not_lt.mpr hfits), List.mem_append] at hwrite
      rcases hwrite with hwrite | hwrite
      · have hlt := lt_of_mem_memcpy hwrite
        rw [List.length_replicate] at hlt
        exact hlt.trans_le hfits
      · have hlt := lt_of_mem_memcpy hwrite
        rw [length_pad] at hlt
        exact hlt.trans_le hfits
    · rw [NetworkManager.frames_of_fits _ _ _ hfits, List.mem_singleton]
        at hframe
      rw [hframe, bodySize_header]
      · exact (length_pad _ _).symm
      · exact hfits.trans_lt (by decide)

/-- With one byte too many `SetBody` writes behind the buffer. -/
theorem not_contained_of_longBody :
    ¬ ∀ (socketId contentsType : ℕ) (bodyBuffer : List UInt8) (bodySize : ℕ)
        (o : CustomOverlapped), bodySize < 2 ^ 32 →
      Contained socketId contentsType bodyBuffer bodySize o := by
  intro hall
  have hcontained := hall 1 4 [] 1025 (.construct [] []) (by decide)
  exact lt_irrefl BUFFER_SIZE
    (hcontained.within _ (exists_write_outside [] (by decide)))

/-! ## Sending and receiving -/

/-- The receive branch of `Process` finds the fields and the body. -/
theorem receivedData_header (key socketId : ℕ) {contentsType : ℕ}
    (htype : contentsType < 2 ^ 32) {body : List UInt8}
    (hbody : body.length ≤ BUFFER_SIZE) :
    Session.receivedData key
        (NetworkManager.header socketId body.length contentsType ++ body) =
      ⟨key, body.length, contentsType, pad BUFFER_SIZE body⟩ := by
  have hlength :
      (NetworkManager.header socketId body.length contentsType).length =
        HEADER_SIZE := by
    simp [NetworkManager.header, HEADER_SIZE]
  have hsize : body.length < 2 ^ 32 := hbody.trans_lt (by decide)
  have hpad : pad HEADER_SIZE
      (NetworkManager.header socketId body.length contentsType ++ body) =
        NetworkManager.header socketId body.length contentsType := by
    rw [pad, List.take_left' hlength, List.length_append, hlength]
    simp
  rw [Session.receivedData, hpad, NetworkManager.ofBuffer_header,
    ntohl_networkBytes hsize, ntohl_networkBytes htype,
    List.drop_left' hlength]

/-- What is sent with any object is what a receive finds, in any object that is
used with discipline and in any object of a server that runs. -/
theorem received_of_sent (socketId : ℕ) {contentsType : ℕ}
    (htype : contentsType < 2 ^ 32) {bodyBuffer : List UInt8}
    (hfits : bodyBuffer.length ≤ BUFFER_SIZE) :
    (∀ o, (NetworkManager.send socketId contentsType bodyBuffer o).frame =
        ⟨networkBytes socketId ++ networkBytes bodyBuffer.length ++
          networkBytes contentsType, bodyBuffer⟩) ∧
      (∀ o, Reachable CustomOverlapped.access Constructed Disciplined o →
        ∀ key, Session.received key ((Client.receiveReady o).receive
            (networkBytes socketId ++ networkBytes bodyBuffer.length ++
              networkBytes contentsType ++ bodyBuffer)) =
          ⟨key, bodyBuffer.length, contentsType,
            pad BUFFER_SIZE bodyBuffer⟩) ∧
      ∀ {α : Type*} {n : ℕ} (c : Config) (handler : Handler α) (s : State n),
        Reachable (State.step c handler) (Started c) unguarded s →
          ∀ p key, Session.received key
            ((Client.receiveReady (s.heap p)).receive
              (networkBytes socketId ++ networkBytes bodyBuffer.length ++
                networkBytes contentsType ++ bodyBuffer)) =
            ⟨key, bodyBuffer.length, contentsType,
              pad BUFFER_SIZE bodyBuffer⟩ := by
  have hreceived {o : CustomOverlapped} (ho : o.CleanTail) (key : ℕ) :=
    (Session.received_receive key (Client.blank_receiveReady ho) _).trans
      (receivedData_header key socketId htype hfits)
  refine ⟨fun o => ?_, fun o ho => hreceived (cleanTail_of_disciplined ho), ?_⟩
  · have hframes :=
      NetworkManager.frames_of_fits socketId contentsType bodyBuffer hfits o
    rw [NetworkManager.frames_length, pad_of_length rfl] at hframes
    exact List.singleton_inj.mp hframes
  · intro α n c handler s hs p
    exact hreceived ((sound_of_reachable hs).2.clean p)

/-- A body of two bytes. -/
theorem received_of_sent_two :
    (NetworkManager.send 1 4 [65, 66] (.construct [] [])).frame =
        ⟨networkBytes 1 ++ networkBytes 2 ++ networkBytes 4, [65, 66]⟩ ∧
      Session.received 1 ((Client.receiveReady (.construct [] [7])).receive
          (networkBytes 1 ++ networkBytes 2 ++ networkBytes 4 ++ [65, 66])) =
        ⟨1, 2, 4, pad BUFFER_SIZE [65, 66]⟩ := by
  have htwo : ([65, 66] : List UInt8).length ≤ BUFFER_SIZE := by decide
  obtain ⟨hsent, hreceived, -⟩ :=
    received_of_sent.{0} 1 (by decide : 4 < 2 ^ 32) htwo
  exact ⟨hsent _, hreceived _ (.start ⟨[], [7], rfl⟩) 1⟩

/-- A body of no bytes hides what the object held before from the next `Clear`,
and a receive finds it behind the two bytes that were sent. -/
theorem not_received_of_shortBody :
    ¬ ∀ o, Reachable CustomOverlapped.access Constructed unguarded o →
      ∀ key socketId contentsType bodyBuffer, contentsType < 2 ^ 32 →
        bodyBuffer.length ≤ BUFFER_SIZE →
          Session.received key ((Client.receiveReady o).receive
            (networkBytes socketId ++ networkBytes bodyBuffer.length ++
              networkBytes contentsType ++ bodyBuffer)) =
            ⟨key, bodyBuffer.length, contentsType,
              pad BUFFER_SIZE bodyBuffer⟩ := by
  intro hall
  have hreachable : Reachable CustomOverlapped.access Constructed unguarded
      ((construct [] [1, 2, 3]).setBody [] 0) :=
    .next (.start ⟨[], [1, 2, 3], rfl⟩) (e := .setBody [] 0) trivial rfl
  have hreceived := hall _ hreachable 1 1 4 [65, 66] (by decide) (by decide)
  have hthird := congrArg (fun received => received.bodyBuffer[2]?) hreceived
  revert hthird
  decide +kernel

end RankingServer.Network
