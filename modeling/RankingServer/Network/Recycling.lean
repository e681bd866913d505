import RankingServer.Network.Conversation

/-!
# Recycled objects

An object is used for one message after the other.  `Clear` wipes the body only
as far as the recorded length, so what it leaves depends on everything that was
done to the object before: `SetBody` may shorten the length and thereby put
bytes out of reach.  It does no harm when the bytes behind the new length are
zero at that moment, as they are after a `Clear`, which `Client::Send` calls
first.
-/

namespace RankingServer.Network

open CustomOverlapped Transition

/-- What is done to an object; `osWrite` stands for a write by the system to the
two buffers, with the bytes it leaves in them from their beginnings on. -/
inductive BufferAccess
  | clear
  | setHeader (headerData : MessageHeader)
  | setBody (bodyBuffer : List UInt8) (bodyLen : ℕ)
  | setOperationType (operationType : OperationType)
  | osWrite (header body : List UInt8)
deriving DecidableEq, Repr

namespace CustomOverlapped

theorem length_headerWritten (o : CustomOverlapped) (header : List UInt8) :
    (overwrite (header.take o.headerLen) o.headerBuf).length = HEADER_SIZE := by
  rw [length_overwrite, o.length_headerBuf]

theorem length_bodyWritten (o : CustomOverlapped) (body : List UInt8) :
    (overwrite (body.take o.bodyLen) o.bodyBuf).length = BUFFER_SIZE := by
  rw [length_overwrite, o.length_bodyBuf]

/-- A write by the system, which stays within the lengths of the buffers. -/
def osWrite (o : CustomOverlapped) (header body : List UInt8) :
    CustomOverlapped :=
  { o with
    headerBuf := overwrite (header.take o.headerLen) o.headerBuf
    bodyBuf := overwrite (body.take o.bodyLen) o.bodyBuf
    length_headerBuf := length_headerWritten o header
    length_bodyBuf := length_bodyWritten o body }

/-- One access; bodies longer than the buffer are not passed to `SetBody`. -/
def access (o : CustomOverlapped) : BufferAccess → Option CustomOverlapped
  | .clear => some o.clear
  | .setHeader headerData => some (o.setHeader headerData)
  | .setBody bodyBuffer bodyLen =>
      if bodyLen ≤ BUFFER_SIZE then some (o.setBody bodyBuffer bodyLen)
      else none
  | .setOperationType operationType =>
      some (o.setOperationType operationType)
  | .osWrite header body => some (o.osWrite header body)

end CustomOverlapped

/-- A new object. -/
def Constructed (o : CustomOverlapped) : Prop :=
  ∃ headerGarbage bodyGarbage, o = .construct headerGarbage bodyGarbage

/-- `SetBody` is called only while the body holds zeros from the new length
on. -/
def Disciplined (o : CustomOverlapped) : BufferAccess → Prop
  | .setBody _ bodyLen =>
      o.bodyBuf.drop bodyLen = List.replicate (BUFFER_SIZE - bodyLen) 0
  | .clear | .setHeader _ | .setOperationType _ | .osWrite _ _ => True

instance (o : CustomOverlapped) : DecidablePred (Disciplined o)
  | .setBody _ _ => inferInstanceAs (Decidable (_ = _))
  | .clear => .isTrue trivial
  | .setHeader _ => .isTrue trivial
  | .setOperationType _ => .isTrue trivial
  | .osWrite _ _ => .isTrue trivial

/-- Nothing is left of earlier messages: a `Clear` blanks the object, and a
receive that is posted on it shows the bytes that arrive, followed by zeros. -/
structure Forgets (o : CustomOverlapped) : Prop where
  clear : o.clear.Blank
  receive : ∀ key data,
    Session.received key ((Client.receiveReady o).receive data) =
      Session.receivedData key data

theorem CustomOverlapped.CleanTail.forgets {o : CustomOverlapped}
    (h : o.CleanTail) : Forgets o where
  clear := h.blank_clear
  receive := by
    intro key data
    exact Session.received_receive key (Client.blank_receiveReady h) data

/-! ## Disciplined accesses -/

/-- Bytes within the length have no influence on those behind it. -/
theorem drop_overwrite (data buf : List UInt8) {n : ℕ}
    (hn : n ≤ buf.length) :
    (overwrite (data.take n) buf).drop n = buf.drop n := by
  rw [overwrite, List.take_take, List.length_take, List.drop_append,
    List.length_take, List.drop_drop, List.drop_of_length_le]
  · rw [List.nil_append]
    congr 1
    omega
  · rw [List.length_take]
    omega

theorem CleanTail.osWrite {o : CustomOverlapped} (h : o.CleanTail)
    (header body : List UInt8) : (o.osWrite header body).CleanTail where
  bodyLen_le := h.bodyLen_le
  tail_zero := by
    have hle : o.bodyLen ≤ o.bodyBuf.length :=
      h.bodyLen_le.trans o.length_bodyBuf.ge
    change (overwrite (body.take o.bodyLen) o.bodyBuf).drop o.bodyLen = _
    rw [drop_overwrite body o.bodyBuf hle]
    exact h.tail_zero

/-- `SetBody` keeps the tail clean when it cuts off zeros only. -/
theorem cleanTail_setBody_of_disciplined {o : CustomOverlapped}
    {bodyBuffer : List UInt8} {bodyLen : ℕ} (hfits : bodyLen ≤ BUFFER_SIZE)
    (hzero : o.bodyBuf.drop bodyLen =
      List.replicate (BUFFER_SIZE - bodyLen) 0) :
    (o.setBody bodyBuffer bodyLen).CleanTail := by
  obtain ⟨hbuf, hlen⟩ := o.setBody_of_fits bodyBuffer hfits
  have hpad : (Scalar.pad bodyLen bodyBuffer).length = bodyLen :=
    Scalar.length_pad _ _
  refine ⟨hlen.trans_le hfits, ?_⟩
  rw [hbuf, hlen, List.drop_left' hpad]
  exact hzero

theorem CleanTail.access {o o' : CustomOverlapped} (h : o.CleanTail)
    {a : BufferAccess} (hdisciplined : Disciplined o a)
    (haccess : o.access a = some o') : o'.CleanTail := by
  cases a with
  | clear =>
      obtain rfl := Option.some.inj haccess
      exact h.blank_clear.cleanTail
  | setHeader headerData =>
      obtain rfl := Option.some.inj haccess
      exact ⟨h.bodyLen_le, h.tail_zero⟩
  | setBody bodyBuffer bodyLen =>
      simp only [CustomOverlapped.access, Option.ite_none_right_eq_some,
        Option.some.injEq] at haccess
      obtain ⟨hfits, rfl⟩ := haccess
      exact cleanTail_setBody_of_disciplined hfits hdisciplined
  | setOperationType operationType =>
      obtain rfl := Option.some.inj haccess
      exact ⟨h.bodyLen_le, h.tail_zero⟩
  | osWrite header body =>
      obtain rfl := Option.some.inj haccess
      exact CleanTail.osWrite h header body

/-- Discipline keeps the tail clean. -/
theorem cleanTail_of_disciplined {o : CustomOverlapped}
    (ho : Reachable CustomOverlapped.access Constructed Disciplined o) :
    o.CleanTail := by
  refine ho.invariant ?_ fun _ _ _ h hdisciplined haccess =>
    CleanTail.access h hdisciplined haccess
  rintro _ ⟨headerGarbage, bodyGarbage, rfl⟩
  exact cleanTail_construct headerGarbage bodyGarbage

/-- An object that is used with discipline forgets, and so do the objects of the
server at any point of any run. -/
theorem forgets_of_disciplined :
    (∀ o, Reachable CustomOverlapped.access Constructed Disciplined o →
        Forgets o) ∧
      ∀ {α : Type*} {n : ℕ} (c : Config) (handler : Handler α) (s : State n),
        Reachable (State.step c handler) (Started c) unguarded s →
          ∀ p, Forgets (s.heap p) := by
  constructor
  · intro o ho
    exact (cleanTail_of_disciplined ho).forgets
  · intro α n c handler s hs p
    exact ((sound_of_reachable hs).2.clean p).forgets

/-- What is done to an object that sends two messages, with receives before and
in between. -/
def twoSends : List BufferAccess :=
  [.clear, .setOperationType .opRecv, .osWrite [1, 2, 3] [4, 5, 6, 7], .clear,
    .setHeader ⟨1, 2, 4⟩, .setBody [65, 66] 2, .clear,
    .osWrite [1, 2, 3] [8, 9, 10, 11], .clear, .setBody [67] 1]

/-- The bodies that are sent are shorter than those that were received. -/
theorem forgets_of_disciplined_twoSends :
    ∃ o, run CustomOverlapped.access (construct [7] [1]) twoSends = some o ∧
      o.bodyLen = 1 ∧ Forgets o := by
  have hlength : ∃ o ∈ runWhile CustomOverlapped.access Disciplined
      (construct [7] [1]) twoSends, o.bodyLen = 1 := by
    decide +kernel
  obtain ⟨o, hrun, hlength⟩ := hlength
  exact ⟨o, run_of_runWhile hrun, hlength, forgets_of_disciplined.{0}.1 o
    (.of_runWhile (.start ⟨[7], [1], rfl⟩) hrun)⟩

/-- A body of no bytes hides the garbage of a new object from the next
`Clear`. -/
theorem not_forgets_of_shortBody :
    ¬ ∀ o, Reachable CustomOverlapped.access Constructed unguarded o →
      Forgets o := by
  intro hall
  have hreachable : Reachable CustomOverlapped.access Constructed unguarded
      ((construct [] [1]).setBody [] 0) :=
    .next (.start ⟨[], [1], rfl⟩) (e := .setBody [] 0) trivial rfl
  have hbody := (hall _ hreachable).clear.body
  have hfirst : ((construct [] [1]).setBody [] 0).clear.bodyBuf.head? =
      some 1 := by
    decide +kernel
  rw [hbody] at hfirst
  revert hfirst
  decide +kernel

end RankingServer.Network
