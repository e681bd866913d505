import RankingServer.Network.Exhaustion
import RankingServer.Network.Slots

/-!
# The conversation on a slot

What a client can rely on is said by an automaton for each slot that reads the
log: an accept, then receives, and between the arrival of a request and the next
receive the call of the receive callback with exactly what arrived, and one send
on the same slot that answers it.  Which messages are requests and which
messages answer them is a parameter.

The turn of a slot is with one party at a time, and that party knows the phase
of the conversation; a step of one slot therefore leaves the others as they are.
-/

namespace RankingServer.Network

open Accounting CustomOverlapped Scalar Transition Utility

/-! ## The automaton -/

/-- The arguments of the receive callback for a completion with these bytes. -/
def Session.receivedData (slot : ℕ) (data : List UInt8) : Received where
  socketId := slot
  bodySize := ntohl (MessageHeader.ofBuffer (pad HEADER_SIZE data)).mBodySize
  contentsType :=
    ntohl (MessageHeader.ofBuffer (pad HEADER_SIZE data)).mContentsType
  bodyBuffer := pad BUFFER_SIZE (data.drop HEADER_SIZE)

theorem Session.received_receive (slot : ℕ) {o : CustomOverlapped}
    (h : o.Blank) (data : List UInt8) :
    received slot (o.receive data) = receivedData slot data := by
  obtain ⟨hheader, hbody⟩ := h.receive_bufs data
  rw [received, receivedData, hheader, hbody]

/-- Which messages are requests, and which bytes on the wire answer them. -/
structure Contract where
  isRequest : Received → Bool
  answers : Received → List UInt8 → Bool

/-- What has last happened on a slot. -/
inductive Phase
  | quiet
  | accepting
  | receiving
  | arrived (data : List UInt8)
  | owing (received : Received)
  | settled
deriving DecidableEq, Repr

def Phase.next (contract : Contract) (slot : ℕ) : Phase → Entry → Option Phase
  | .quiet, .accepting _ => some .accepting
  | .accepting, .receiving _ _ => some .receiving
  | .receiving, .arrived _ data => some (.arrived data)
  | .arrived [], .receiving _ _ => some .receiving
  | .arrived (byte :: data), .called _ received =>
      if received = Session.receivedData slot (byte :: data) then
        some (if contract.isRequest received then .owing received else .settled)
      else none
  | .owing received, .sent _ wire =>
      if contract.answers received wire then some .settled else none
  | .settled, .receiving _ _ => some .receiving
  | _, _ => none

def Entry.slot : Entry → ℕ
  | .accepting slot | .receiving slot _ | .arrived slot _ | .called slot _
  | .sent slot _ => slot

/-- The phase after a log, if the entries of the slot are in order. -/
def phaseOf (contract : Contract) (slot : ℕ) : List Entry → Option Phase
  | [] => some .quiet
  | entry :: log =>
      if entry.slot = slot then
        (phaseOf contract slot log).bind fun phase =>
          phase.next contract slot entry
      else phaseOf contract slot log

/-- The next receive may be posted. -/
def Phase.MayReceive : Phase → Prop
  | .accepting | .settled | .arrived [] => True
  | .quiet | .receiving | .arrived (_ :: _) | .owing _ => False

theorem Phase.next_receiving {contract : Contract} {slot : ℕ} {phase : Phase}
    (h : phase.MayReceive) (client : ℕ) (connection : Connection) :
    phase.next contract slot (.receiving client connection) =
      some .receiving := by
  match phase, h with
  | .accepting, _ => rfl
  | .settled, _ => rfl
  | .arrived [], _ => rfl

variable {contract : Contract} {slot : ℕ} {log : List Entry} {entry : Entry}

theorem phaseOf_cons_of_ne (h : entry.slot ≠ slot) :
    phaseOf contract slot (entry :: log) = phaseOf contract slot log :=
  if_neg h

theorem phaseOf_cons {phase : Phase}
    (hphase : phaseOf contract slot log = some phase) (h : entry.slot = slot) :
    phaseOf contract slot (entry :: log) = phase.next contract slot entry := by
  rw [phaseOf, if_pos h, hphase]
  rfl

/-! ## What a send puts on the wire -/

/-- The message that `NetworkManager::Send` is asked to send. -/
def NetworkManager.wire (socketId contentsType : ℕ)
    (bodyBuffer : List UInt8) : List UInt8 :=
  networkBytes socketId ++ networkBytes bodyBuffer.length ++
    networkBytes contentsType ++ bodyBuffer

theorem NetworkManager.wire_fields (socketId contentsType : ℕ)
    (bodyBuffer : List UInt8) :
    (wire socketId contentsType bodyBuffer).take 4 = networkBytes socketId ∧
      ((wire socketId contentsType bodyBuffer).drop 8).take 4 =
        networkBytes contentsType ∧
      (wire socketId contentsType bodyBuffer).drop HEADER_SIZE =
        bodyBuffer := by
  have hdrop (n : ℕ) {k : ℕ} (hk : 4 ≤ k) : (networkBytes n).drop k = [] :=
    List.drop_eq_nil_of_le (by rwa [length_networkBytes])
  simp [wire, HEADER_SIZE, List.drop_append, hdrop]

theorem NetworkManager.wire_send (socketId contentsType : ℕ)
    {bodyBuffer : List UInt8} (hfits : bodyBuffer.length ≤ BUFFER_SIZE)
    (o : CustomOverlapped) :
    (NetworkManager.send socketId contentsType bodyBuffer o).wire =
      NetworkManager.wire socketId contentsType bodyBuffer := by
  have hbody := take_setBody ((o.clear.setOperationType .opSend).setHeader
    ⟨htonl socketId, htonl bodyBuffer.length, htonl contentsType⟩) hfits
  rw [CustomOverlapped.wire, NetworkManager.send, Client.send, hbody,
    headerBuf_setBody, headerLen_setBody, NetworkManager.wire]
  congr 1
  simp [setHeader, MessageHeader.bytes, HEADER_SIZE]

/-- The message answers the request, and `SetBody` does not refuse its body. -/
def Reply (contract : Contract) (received : Received)
    (socketId contentsType : ℕ) (bodyBuffer : List UInt8) : Prop :=
  bodyBuffer.length ≤ BUFFER_SIZE ∧
    contract.answers received
      (NetworkManager.wire socketId contentsType bodyBuffer) = true

/-- The receive callback sends an answer to a request back to its slot, and
sends nothing for other messages. -/
def Reacts (contract : Contract) (received : Received) : Reaction → Prop
  | .returns => contract.isRequest received = false
  | .sends socketId contentsType bodyBuffer =>
      contract.isRequest received = true ∧ socketId = received.socketId ∧
        Reply contract received socketId contentsType bodyBuffer
  | .aborts => False

/-! ## Who knows the phase -/

/-- The phase of the conversation agrees with the operation in use. -/
def OperationPhase (contract : Contract) (log : List Entry)
    (heap : Pointer → CustomOverlapped) (op : Operation) : Prop :=
  match op.call, op.completion with
  | .acceptEx, _ => phaseOf contract op.slot log = some .accepting
  | .wsaRecv, some (.done bytesTransferred) =>
      ∃ data, bytesTransferred = data.length ∧
        phaseOf contract op.slot log = some (.arrived data) ∧
        Session.received op.slot (heap op.overlapped) =
          Session.receivedData op.slot data
  | .wsaRecv, none | .wsaRecv, some .failed =>
      phaseOf contract op.slot log = some .receiving
  | .wsaSend, _ => True

/-- The phase agrees with the call that a worker makes for a slot. -/
def CallPhase (contract : Contract) (log : List Entry) (slot : ℕ) :
    Call → Prop
  | .receiveReady =>
      ∃ phase, phaseOf contract slot log = some phase ∧ phase.MayReceive
  | .send socketId contentsType bodyBuffer =>
      ∃ received, phaseOf contract slot log = some (.owing received) ∧
        socketId = slot ∧
          Reply contract received socketId contentsType bodyBuffer

def WorkerPhase (contract : Contract) (log : List Entry) : Worker → Prop
  | .handling _ slot received =>
      ∃ byte data, received = Session.receivedData slot (byte :: data) ∧
        phaseOf contract slot log = some (.arrived (byte :: data))
  | .calling _ slot call | .popped _ slot call _ =>
      CallPhase contract log slot call
  | .unstarted | .waiting | .dispatching _ _ | .recycling _ => True

/-- The worker has been told what to send and has not posted it. -/
def Worker.Responding (slot : ℕ) : Worker → Prop
  | .calling _ client (.send _ _ _) | .popped _ client (.send _ _ _) _ =>
      client = slot
  | _ => False

variable {α : Type*} {n : ℕ} {c : Config} {handler : Handler α}
  {s s' : State n} {e : Event α n}

/-- The conversations in every state of a run in which the receive callback
reacts as it should. -/
structure Conversing (contract : Contract) (s : State n) : Prop where
  operations : ∀ op, InUse s.posted s.workers op →
    OperationPhase contract s.log s.heap op
  workers : ∀ w, WorkerPhase contract s.log (s.workers w)
  main : ∀ slot, s.main.Owes slot →
    phaseOf contract slot s.log = some .quiet
  ordered : ∀ slot, (phaseOf contract slot s.log).isSome
  answered : ∀ slot received,
    phaseOf contract slot s.log = some (.owing received) →
      s.crash = none ∧ ∃ w, (s.workers w).Responding slot

/-! ## A step of one slot leaves the others as they are -/

/-- Whoever adds an entry to the conversation of a slot has its turn. -/
inductive Speaker (s : State n) (e : Event α n) (slot : ℕ) : Prop
  | main {ok : Bool} : e = .main ok → s.main.Owes slot → Speaker s e slot
  | worker {w : Fin n} {ok : Bool} {answer : α} :
      e = .work w ok answer → (s.workers w).Serves slot →
        (∀ op b, s.workers w ≠ .dispatching op b) → Speaker s e slot
  | posted {k : ℕ} {data : List UInt8} {op : Operation} :
      e = .complete k data → s.posted[k]? = some op → op.call ≠ .wsaSend →
        op.slot = slot → Speaker s e slot

theorem Conversing.target_eq (hc : Conversing contract s) {w : Fin n}
    {overlapped p : Pointer} {call : Call}
    (hpopped : s.workers w = .popped overlapped slot call p) :
    call.target slot = slot := by
  cases call with
  | receiveReady => rfl
  | send =>
      have hphase := hc.workers w
      rw [hpopped] at hphase
      obtain ⟨received, -, heq, -⟩ := hphase
      exact heq

theorem Call.slot_entry (call : Call) (slot : ℕ)
    (connection : ℕ → Connection) (o : CustomOverlapped) :
    (call.entry slot connection o).slot = call.target slot := by
  cases call <;> rfl

theorem Conversing.speaker (hc : Conversing contract s)
    (h : Step c handler s e s') :
    s'.log = s.log ∨
      ∃ entry, s'.log = entry :: s.log ∧ Speaker s e entry.slot := by
  cases h with
  | acceptPost hmain =>
      refine Or.inr ⟨_, rfl, .main rfl ?_⟩
      rw [hmain]
      exact List.mem_cons_self
  | @handled w _ _ _ _ _ _ hhandling _ =>
      refine Or.inr ⟨_, rfl, .worker rfl (w := w) ?_ ?_⟩
      · rw [hhandling]
        rfl
      · rw [hhandling]
        simp
  | @aborted w _ _ _ _ _ hhandling _ =>
      refine Or.inr ⟨_, rfl, .worker rfl (w := w) ?_ ?_⟩
      · rw [hhandling]
        rfl
      · rw [hhandling]
        simp
  | @post w _ _ _ call _ hpopped =>
      refine Or.inr ⟨_, rfl, ?_⟩
      rw [call.slot_entry, hc.target_eq hpopped]
      refine .worker rfl (w := w) ?_ ?_
      · rw [hpopped]
        rfl
      · rw [hpopped]
        simp
  | recvDone hget => exact Or.inr ⟨_, rfl, .posted rfl hget (by simp) rfl⟩
  | _ => exact Or.inl rfl

theorem Speaker.ne_of_inUse (h : Speaker s e slot)
    (htokens : tokens slot s ≤ 1) {op : Operation}
    (hop : InUse s.posted s.workers op)
    (herase : ∀ k data, e = .complete k data →
      InUse (s.posted.eraseIdx k) s.workers op)
    (hcall : op.call ≠ .wsaSend) : op.slot ≠ slot := by
  have hserves {v : Fin n} {b : ℕ} (hv : s.workers v = .dispatching op b)
      (heq : op.slot = slot) : (s.workers v).Serves slot := by
    rw [hv]
    exact ⟨hcall, heq⟩
  intro heq
  cases h with
  | main he howes =>
      obtain ⟨hposted, hworkers⟩ := alone_of_main htokens howes
      rcases hop with hmem | ⟨v, b, hv⟩
      · exact hposted op hmem hcall heq
      · exact hworkers v (hserves hv heq)
  | @worker w _ _ he hw hnot =>
      obtain ⟨hposted, -, hworkers⟩ := alone_of_worker htokens hw
      rcases hop with hmem | ⟨v, b, hv⟩
      · exact hposted op hmem hcall heq
      · obtain rfl := hworkers v (hserves hv heq)
        exact hnot op b hv
  | posted he hget hcall₀ hslot =>
      obtain ⟨hposted, -, hworkers⟩ :=
        alone_of_posted htokens hget hcall₀ hslot
      rcases herase _ _ he with hmem | ⟨v, b, hv⟩
      · exact hposted op hmem hcall heq
      · exact hworkers v (hserves hv heq)

theorem Speaker.ne_of_serves (h : Speaker s e slot)
    (htokens : tokens slot s ≤ 1) {v : Fin n} {client : ℕ}
    (hv : (s.workers v).Serves client)
    (hother : ∀ ok answer, e ≠ .work v ok answer) : client ≠ slot := by
  rintro rfl
  cases h with
  | main he howes => exact (alone_of_main htokens howes).2 v hv
  | worker he hw hnot =>
      obtain rfl := (alone_of_worker htokens hw).2.2 v hv
      exact hother _ _ he
  | posted he hget hcall hslot =>
      exact (alone_of_posted htokens hget hcall hslot).2.2 v hv

theorem Speaker.ne_of_owes (h : Speaker s e slot)
    (htokens : tokens slot s ≤ 1) {client : ℕ} (hmain : s.main.Owes client)
    (hother : ∀ ok, e ≠ .main ok) : client ≠ slot := by
  rintro rfl
  cases h with
  | main he howes => exact hother _ he
  | worker he hw hnot => exact (alone_of_worker htokens hw).2.1 hmain
  | posted he hget hcall hslot =>
      exact (alone_of_posted htokens hget hcall hslot).2.1 hmain

/-- The phase of a slot with which the speaker has nothing to do. -/
theorem Conversing.phase_eq (hc : Conversing contract s)
    (h : Step c handler s e s') {client : ℕ}
    (hne : ∀ slot, Speaker s e slot → client ≠ slot) :
    phaseOf contract client s'.log = phaseOf contract client s.log := by
  rcases hc.speaker h with hsilent | ⟨entry, hlog, hspeaker⟩
  · rw [hsilent]
  · rw [hlog]
    exact phaseOf_cons_of_ne (hne _ hspeaker).symm

/-! ## Steps with a receive callback that reacts as it should -/

/-- What is asked of the step of a worker: the receive callback reacts as it
should, and the system accepts the sends. -/
def Duty (contract : Contract) (handler : Handler α) (mSendCallback ok : Bool)
    (answer : α) : Worker → Prop
  | .handling _ _ received =>
      Reacts contract received (handler mSendCallback received answer)
  | .popped _ _ (.send _ _ _) _ => ok = true
  | _ => True

/-- Pops succeed, and workers do their duty. -/
structure Proper (contract : Contract) (c : Config) (handler : Handler α)
    (s : State n) (e : Event α n) : Prop where
  pops : Pops c s e → s.mOverlappedQueue.pop.2 ≠ none
  duty : ∀ w ok answer, e = .work w ok answer →
    Duty contract handler s.mSendCallback ok answer (s.workers w)

theorem OperationPhase.congr {log log' : List Entry}
    {heap heap' : Pointer → CustomOverlapped} {op : Operation}
    (h : OperationPhase contract log heap op)
    (hphase : op.call ≠ .wsaSend →
      phaseOf contract op.slot log' = phaseOf contract op.slot log)
    (hheap : heap' op.overlapped = heap op.overlapped) :
    OperationPhase contract log' heap' op := by
  obtain ⟨p, call, slot, completion⟩ := op
  cases call with
  | acceptEx => exact (hphase (by simp)).trans h
  | wsaRecv =>
      have hne : SocketCall.wsaRecv ≠ .wsaSend := by simp
      simp only [OperationPhase, hphase hne, hheap] at h ⊢
      exact h
  | wsaSend => trivial

theorem WorkerPhase.congr {log log' : List Entry} {worker : Worker}
    (h : WorkerPhase contract log worker)
    (hphase : ∀ slot, worker.Serves slot →
      phaseOf contract slot log' = phaseOf contract slot log) :
    WorkerPhase contract log' worker := by
  cases worker with
  | handling _ slot _ =>
      simp only [WorkerPhase, hphase slot rfl] at h ⊢
      exact h
  | calling _ slot call | popped _ slot call _ =>
      cases call <;>
        simp only [WorkerPhase, CallPhase, hphase slot rfl] at h ⊢ <;>
          exact h
  | unstarted | waiting | dispatching | recycling => trivial

theorem Conversing.operations_step (hc : Conversing contract s)
    (hs : Sound c s) (hb : Buffers s) (htokens : ∀ slot, tokens slot s ≤ 1)
    (h : Step c handler s e s') (op : Operation)
    (hop : InUse s'.posted s'.workers op) :
    OperationPhase contract s'.log s'.heap op := by
  cases hs.origin h hop with
  | kept hop hheap herase =>
      refine (hc.operations op hop).congr (fun hcall => ?_) hheap
      exact hc.phase_eq h fun slot hspeaker =>
        hspeaker.ne_of_inUse (htokens slot) hop herase hcall
  | @accepting slot clients p hmain hop hheap hlog =>
      subst hop
      have hquiet := hc.main slot (by rw [hmain]; exact List.mem_cons_self)
      change phaseOf contract slot s'.log = some .accepting
      rw [hlog, phaseOf_cons hquiet rfl]
      rfl
  | @posted w overlapped slot call p hpopped hop hheap hlog =>
      subst hop
      cases call with
      | receiveReady =>
          have hphase := hc.workers w
          rw [hpopped] at hphase
          obtain ⟨phase, hphase, hmay⟩ := hphase
          change phaseOf contract slot s'.log = some .receiving
          rw [hlog, phaseOf_cons hphase rfl]
          exact Phase.next_receiving hmay _ _
      | send => trivial
  | @accepted p slot data hold hop hheap hconnection hlog =>
      subst hop
      have hphase := hc.operations _ hold
      change phaseOf contract slot s'.log = some .accepting
      rw [hlog]
      exact hphase
  | @received p slot k data he hold hop hheap hlog =>
      subst hop
      have hphase : phaseOf contract slot s.log = some .receiving :=
        hc.operations _ hold
      have hblank := hb.blank _ hold rfl rfl
      refine ⟨data, rfl, ?_, ?_⟩
      · change phaseOf contract slot s'.log = _
        rw [hlog, phaseOf_cons hphase rfl]
        rfl
      · change Session.received slot (s'.heap p) = _
        rw [hheap]
        exact Session.received_receive slot hblank data
  | @finished op₀ completion hold hop hfinished hheap hlog =>
      subst hop
      have hphase := hc.operations op₀ hold
      obtain ⟨p, call, slot, pending⟩ := op₀
      rcases hfinished with ⟨hsend, -⟩ | ⟨hfailed, hpending, -⟩
      · obtain rfl : call = .wsaSend := hsend
        trivial
      · obtain rfl : pending = none := hpending
        subst hfailed
        rw [hlog]
        cases call with
        | acceptEx => exact hphase
        | wsaRecv => exact hphase
        | wsaSend => trivial

theorem Conversing.dispatched (hc : Conversing contract s) (hs : Sound c s)
    {w : Fin n} {op : Operation} {b : ℕ}
    (hdispatching : s.workers w = .dispatching op b) :
    WorkerPhase contract s.log
      (Session.dispatched (s.heap op.overlapped) op b) := by
  have hphase := hc.operations op (Or.inr ⟨w, b, hdispatching⟩)
  have hdone := hs.workers w
  rw [hdispatching] at hdone
  obtain ⟨p, call, slot, completion⟩ := op
  obtain rfl : completion = some (.done b) := hdone
  cases call with
  | acceptEx => exact ⟨.accepting, hphase, trivial⟩
  | wsaRecv =>
      obtain ⟨data, rfl, hphase, hreceived⟩ := hphase
      cases data with
      | nil => exact ⟨.arrived [], hphase, trivial⟩
      | cons byte data => exact ⟨byte, data, hreceived, hphase⟩
  | wsaSend => trivial

/-- After the receive callback reacted as it should. -/
theorem callPhase_of_reacts {received : Received} {byte : UInt8}
    {data : List UInt8} {call : Call}
    (hphase : phaseOf contract slot log = some (.arrived (byte :: data)))
    (hreceived : received = Session.receivedData slot (byte :: data))
    (hreacts : Reacts contract received call.reaction) :
    CallPhase contract (.called slot received :: log) slot call := by
  have hnext : phaseOf contract slot (.called slot received :: log) = _ :=
    phaseOf_cons hphase rfl
  simp only [Phase.next, if_pos hreceived] at hnext
  cases call with
  | receiveReady =>
      have hnot : contract.isRequest received = false := hreacts
      rw [hnot] at hnext
      exact ⟨.settled, hnext, trivial⟩
  | send socketId contentsType bodyBuffer =>
      obtain ⟨hrequest, hsocket, hreply⟩ := hreacts
      rw [if_pos hrequest] at hnext
      refine ⟨received, hnext, ?_, hreply⟩
      rw [hsocket, hreceived]
      rfl

/-- After the response was posted. -/
theorem callPhase_of_sent {socketId contentsType : ℕ}
    {bodyBuffer : List UInt8}
    (h : CallPhase contract log slot (.send socketId contentsType bodyBuffer))
    (o : CustomOverlapped) :
    CallPhase contract
      (.sent socketId
        (NetworkManager.send socketId contentsType bodyBuffer o).wire :: log)
      slot .receiveReady := by
  obtain ⟨received, hphase, rfl, hfits, hanswers⟩ := h
  refine ⟨.settled, ?_, trivial⟩
  rw [phaseOf_cons hphase rfl, NetworkManager.wire_send _ _ hfits]
  exact if_pos hanswers

theorem Conversing.workers_step (hc : Conversing contract s) (hs : Sound c s)
    (htokens : ∀ slot, tokens slot s ≤ 1)
    (hproper : Proper contract c handler s e) (h : Step c handler s e s') :
    ∀ w, WorkerPhase contract s'.log (s'.workers w) := by
  have hother (v : Fin n) (hv : ∀ ok answer, e ≠ .work v ok answer) :
      WorkerPhase contract s'.log (s.workers v) :=
    (hc.workers v).congr fun client hserves =>
      hc.phase_eq h fun slot hspeaker =>
        hspeaker.ne_of_serves (htokens slot) hserves hv
  have hupdate {w : Fin n} {next : Worker}
      (hnext : WorkerPhase contract s'.log next)
      (hacts : ∀ v, v ≠ w → ∀ ok answer, e ≠ .work v ok answer) :
      ∀ v, WorkerPhase contract s'.log (Function.update s.workers w next v) :=
    (Function.forall_update_iff s.workers fun _ =>
      WorkerPhase contract s'.log).mpr
        ⟨hnext, fun v hvw => hother v (hacts v hvw)⟩
  have hself {w : Fin n} {ok : Bool} {answer : α} (v : Fin n) (hvw : v ≠ w)
      (ok' : Bool) (answer' : α) :
      Event.work w ok answer ≠ .work v ok' answer' := by
    rintro ⟨⟩
    exact hvw rfl
  cases h with
  | spawn | dequeueDone => exact hupdate trivial fun v _ => (by simp)
  | @dispatch w _ _ op b hdispatching =>
      have hsound := hs.operations op (Or.inr ⟨w, b, hdispatching⟩)
      have hnext := hc.dispatched hs hdispatching
      rw [← hsound.dispatch_eq] at hnext
      exact hupdate hnext hself
  | @handled w ok answer overlapped slot received call hhandling hreaction =>
      have hphase := hc.workers w
      have hduty := hproper.duty w ok answer rfl
      rw [hhandling] at hphase hduty
      obtain ⟨byte, data, hreceived, hphase⟩ := hphase
      simp only [Duty, hreaction] at hduty
      exact hupdate (callPhase_of_reacts hphase hreceived hduty) hself
  | @aborted w ok answer overlapped slot received hhandling haborts =>
      have hduty := hproper.duty w ok answer rfl
      rw [hhandling] at hduty
      simp only [Duty, haborts] at hduty
      exact hduty.elim
  | @returnEarly w ok answer overlapped slot call hcalling hearly =>
      refine hupdate ?_ hself
      cases call with
      | receiveReady => trivial
      | send =>
          have hphase := hc.workers w
          have hslot := hs.workers w
          rw [hcalling] at hphase hslot
          obtain ⟨received, -, rfl, -⟩ := hphase
          exact absurd hslot hearly
  | @popNull w ok answer overlapped slot call hcalling hearly hpop =>
      exact absurd hpop (hproper.pops (by simpa [Pops, hcalling] using hearly))
  | @pop w ok answer overlapped slot call p hcalling hearly hpop =>
      have hphase := hc.workers w
      rw [hcalling] at hphase
      exact hupdate hphase hself
  | @post w answer overlapped slot call p hpopped =>
      refine hupdate ?_ hself
      have hphase := hc.workers w
      rw [hpopped] at hphase
      cases call with
      | receiveReady => trivial
      | send => exact callPhase_of_sent hphase (s.heap p)
  | @refused w answer overlapped slot call p hpopped =>
      refine hupdate ?_ hself
      cases call with
      | receiveReady => trivial
      | send =>
          have hduty := hproper.duty w false answer rfl
          rw [hpopped] at hduty
          cases hduty
  | recycle => exact hupdate trivial hself
  | _ => exact fun v => hother v (by simp)

theorem Conversing.main_step (hc : Conversing contract s)
    (htokens : ∀ slot, tokens slot s ≤ 1) (h : Step c handler s e s')
    (slot : ℕ) (howes : s'.main.Owes slot) :
    phaseOf contract slot s'.log = some .quiet := by
  have hother (howes : s.main.Owes slot) (hmain : ∀ ok, e ≠ .main ok) :
      phaseOf contract slot s'.log = some .quiet := by
    rw [hc.phase_eq h fun slot hspeaker =>
      hspeaker.ne_of_owes (htokens slot) howes hmain]
    exact hc.main slot howes
  have hkept {main : Main} (hmain : s.main = main) (howes : main.Owes slot) :
      phaseOf contract slot s.log = some .quiet :=
    hc.main slot (hmain ▸ howes)
  cases h with
  | acceptEnd | spawn | install => exact howes.elim
  | acceptSkip hmain => exact hkept hmain (List.mem_cons_of_mem _ howes)
  | acceptNull => exact hc.main slot howes
  | acceptPop hmain => exact hkept hmain howes
  | @acceptPost client clients p hmain =>
      have hne : (Entry.accepting client).slot ≠ slot := by
        rintro rfl
        have htwice : 2 ≤ (turn client).ofMain s.main := by
          rw [hmain]
          change 2 ≤ (client :: clients).count client
          rw [List.count_cons_self]
          exact Nat.succ_le_succ (List.count_pos_iff.mpr howes)
        have hone := htokens client
        rw [tokens, Weight.total] at hone
        omega
      exact (phaseOf_cons_of_ne hne).trans
        (hkept hmain (List.mem_cons_of_mem _ howes))
  | acceptRefused hmain => exact hkept hmain (List.mem_cons_of_mem _ howes)
  | _ => exact hother howes (by simp)

theorem Proper.not_aborts (hproper : Proper contract c handler s e)
    {w : Fin n} {ok : Bool} {answer : α} (he : e = .work w ok answer)
    {overlapped : Pointer} {received : Received}
    (hhandling : s.workers w = .handling overlapped slot received) :
    handler s.mSendCallback received answer ≠ .aborts := by
  have hduty := hproper.duty w ok answer he
  rw [hhandling] at hduty
  intro haborts
  simp only [Duty, haborts] at hduty
  exact hduty

theorem CallPhase.isSome {call : Call}
    (h : CallPhase contract log slot call) :
    (phaseOf contract slot log).isSome := by
  cases call with
  | receiveReady =>
      obtain ⟨phase, hphase, -⟩ := h
      exact Option.isSome_of_eq_some hphase
  | send =>
      obtain ⟨received, hphase, -⟩ := h
      exact Option.isSome_of_eq_some hphase

/-- Whoever spoke knows the new phase. -/
theorem Conversing.ordered_step (hc : Conversing contract s)
    (hproper : Proper contract c handler s e)
    (hoperations : ∀ op, InUse s'.posted s'.workers op →
      OperationPhase contract s'.log s'.heap op)
    (hworkers : ∀ w, WorkerPhase contract s'.log (s'.workers w))
    (h : Step c handler s e s') (slot : ℕ) :
    (phaseOf contract slot s'.log).isSome := by
  have hold := hc.ordered slot
  have hcons {entry : Entry}
      (hknown : (phaseOf contract entry.slot (entry :: s.log)).isSome) :
      (phaseOf contract slot (entry :: s.log)).isSome := by
    by_cases heq : entry.slot = slot
    · rwa [heq] at hknown
    · rwa [phaseOf_cons_of_ne heq]
  cases h with
  | acceptPost =>
      have hphase := hoperations _ (Or.inl List.mem_cons_self)
      exact hcons (Option.isSome_of_eq_some hphase)
  | @handled w ok answer overlapped slot received call hhandling hreaction =>
      have hphase := hworkers w
      simp only [State.setWorker, Function.update_self] at hphase
      exact hcons (CallPhase.isSome hphase)
  | aborted hhandling haborts =>
      exact absurd haborts (hproper.not_aborts rfl hhandling)
  | @post w answer overlapped slot call p hpopped =>
      cases call with
      | receiveReady =>
          have hphase := hoperations _ (Or.inl List.mem_cons_self)
          exact hcons (Option.isSome_of_eq_some hphase)
      | send socketId =>
          obtain rfl : socketId = slot := hc.target_eq hpopped
          have hphase := hworkers w
          simp only [State.post, State.setWorker, Function.update_self]
            at hphase
          have hcall : CallPhase contract (.sent socketId _ :: s.log) socketId
              .receiveReady := hphase
          exact hcons hcall.isSome
  | @recvDone k data p slot hget hfits hlive =>
      have hmem := (set_perm_cons_eraseIdx
        ⟨p, .wsaRecv, slot, some (.done data.length)⟩ hget).mem_iff.mpr
          List.mem_cons_self
      obtain ⟨data, -, hphase, -⟩ := hoperations _ (Or.inl hmem)
      exact hcons (Option.isSome_of_eq_some hphase)
  | _ => exact hold

/-- A worker that moves goes on responding if it was. -/
theorem responding_update {workers : Fin n → Worker} {w : Fin n}
    {next : Worker} (hold : ∃ v, (workers v).Responding slot)
    (hkeep : (workers w).Responding slot → next.Responding slot) :
    ∃ v, (Function.update workers w next v).Responding slot := by
  obtain ⟨v, hv⟩ := hold
  refine ⟨v, ?_⟩
  by_cases hvw : v = w
  · subst hvw
    rw [Function.update_self]
    exact hkeep hv
  · rwa [Function.update_of_ne hvw]

/-- Only a call of the receive callback leaves a response owing. -/
theorem owing_cons {received : Received}
    (howing : phaseOf contract slot (entry :: log) = some (.owing received)) :
    (entry.slot ≠ slot ∧ phaseOf contract slot log = some (.owing received)) ∨
      ∃ r, entry = .called slot r := by
  by_cases heq : entry.slot = slot
  · right
    rw [phaseOf, if_pos heq, Option.bind_eq_some_iff] at howing
    obtain ⟨phase, -, hnext⟩ := howing
    cases entry with
    | called client r =>
        obtain rfl : client = slot := heq
        exact ⟨r, rfl⟩
    | accepting | receiving | arrived =>
        rw [Phase.next.eq_def] at hnext
        split at hnext <;> simp_all
    | sent =>
        rw [Phase.next.eq_def] at hnext
        split at hnext <;> simp_all
  · exact Or.inl ⟨heq, by rwa [phaseOf_cons_of_ne heq] at howing⟩

/-- In a step that does its duty, a call that returns before it pops is one of
`ReceiveReady`. -/
theorem Conversing.not_returnsEarly (hc : Conversing contract s)
    (hs : Sound c s) {w : Fin n} {overlapped : Pointer} {socketId : ℕ}
    {contentsType : ℕ} {bodyBuffer : List UInt8} (ok : Bool)
    (hcalling : s.workers w = .calling overlapped slot
      (.send socketId contentsType bodyBuffer)) :
    ¬ (Call.send socketId contentsType bodyBuffer).ReturnsEarly c ok := by
  have hphase := hc.workers w
  have hslot := hs.workers w
  rw [hcalling] at hphase hslot
  obtain ⟨received, -, rfl, -⟩ := hphase
  exact not_not.mpr hslot

theorem Conversing.answered_step (hc : Conversing contract s)
    (hs : Sound c s) (hproper : Proper contract c handler s e)
    (hworkers : ∀ w, WorkerPhase contract s'.log (s'.workers w))
    (hcrash : s.crash = none) (h : Step c handler s e s') (slot : ℕ)
    (received : Received)
    (howing : phaseOf contract slot s'.log = some (.owing received)) :
    s'.crash = none ∧ ∃ w, (s'.workers w).Responding slot := by
  have hold := hc.answered slot received
  have hmoves {w : Fin n} {next : Worker}
      (hbefore : phaseOf contract slot s.log = some (.owing received))
      (hkeep : (s.workers w).Responding slot → next.Responding slot) :
      s.crash = none ∧
        ∃ v, (Function.update s.workers w next v).Responding slot :=
    ⟨hcrash, responding_update (hold hbefore).2 hkeep⟩
  cases h with
  | acceptEnd | acceptSkip | acceptPop | acceptRefused | install
  | dequeueFailed | acceptDone | sendDone | fail => exact hold howing
  | acceptNull hmain hpop =>
      exact absurd hpop (hproper.pops (by simp [Pops, hmain]))
  | popNull hcalling hearly hpop =>
      exact absurd hpop (hproper.pops (by simpa [Pops, hcalling] using hearly))
  | aborted hhandling haborts =>
      exact absurd haborts (hproper.not_aborts rfl hhandling)
  | acceptPost =>
      rcases owing_cons howing with ⟨-, hbefore⟩ | ⟨r, hentry⟩
      · exact hold hbefore
      · cases hentry
  | @recvDone k data p client hget hfits hlive =>
      rcases owing_cons howing with ⟨-, hbefore⟩ | ⟨r, hentry⟩
      · exact hold hbefore
      · cases hentry
  | @spawn _ k hk hmain =>
      refine hmoves howing fun hresponding => ?_
      rw [hs.unstarted ⟨k, hk⟩ (by simp [Main.Precedes, hmain])] at hresponding
      exact hresponding
  | dequeueDone hwaiting =>
      exact hmoves howing (by rw [hwaiting]; exact False.elim)
  | dispatch hdispatching =>
      exact hmoves howing (by rw [hdispatching]; exact False.elim)
  | recycle hrecycling =>
      exact hmoves howing (by rw [hrecycling]; exact False.elim)
  | @handled w ok answer overlapped client r call hhandling hreaction =>
      rcases owing_cons howing with ⟨-, hbefore⟩ | ⟨r', hentry⟩
      · exact hmoves hbefore (by rw [hhandling]; exact False.elim)
      · obtain ⟨rfl, rfl⟩ : client = slot ∧ r = r' := by
          cases hentry
          exact ⟨rfl, rfl⟩
        refine ⟨hcrash, w, ?_⟩
        have hphase := hworkers w
        simp only [State.setWorker, Function.update_self] at hphase ⊢
        cases call with
        | send => rfl
        | receiveReady =>
            obtain ⟨phase, hphase, hmay⟩ := hphase
            obtain rfl : phase = .owing received :=
              Option.some.inj (hphase.symm.trans howing)
            exact hmay.elim
  | @returnEarly w ok answer overlapped client call hcalling hearly =>
      cases call with
      | receiveReady => exact hmoves howing (by rw [hcalling]; exact False.elim)
      | send => exact absurd hearly (hc.not_returnsEarly hs ok hcalling)
  | @pop w ok answer overlapped client call p hcalling hearly hpop =>
      refine hmoves howing ?_
      rw [hcalling]
      cases call <;> exact id
  | @post w answer overlapped client call p hpopped =>
      rcases owing_cons howing with ⟨hne, hbefore⟩ | ⟨r, hentry⟩
      · refine hmoves hbefore ?_
        rw [call.slot_entry, hc.target_eq hpopped] at hne
        rw [hpopped]
        cases call with
        | receiveReady => exact False.elim
        | send => exact fun hresponding => absurd hresponding hne
      · cases call <;> cases hentry
  | @refused w answer overlapped client call p hpopped =>
      cases call with
      | receiveReady => exact hmoves howing (by rw [hpopped]; exact False.elim)
      | send =>
          have hduty := hproper.duty w false answer rfl
          rw [hpopped] at hduty
          cases hduty

theorem Conversing.step (hc : Conversing contract s) (hs : Sound c s)
    (hb : Buffers s) (htokens : ∀ slot, tokens slot s ≤ 1)
    (hproper : Proper contract c handler s e) (hcrash : s.crash = none)
    (h : Step c handler s e s') : Conversing contract s' := by
  have hoperations := hc.operations_step hs hb htokens h
  have hworkers := hc.workers_step hs htokens hproper h
  exact {
    operations := hoperations
    workers := hworkers
    main := hc.main_step htokens h
    ordered := hc.ordered_step hproper hoperations hworkers h
    answered := hc.answered_step hs hproper hworkers hcrash h }

/-! ## Every run -/

/-- The worker runs the receive callback for the slot. -/
def Worker.InCallback (slot : ℕ) : Worker → Prop
  | .handling _ client _ | .calling _ client (.send _ _ _)
  | .popped _ client (.send _ _ _) _ => client = slot
  | _ => False

theorem Worker.serves_of_inCallback {worker : Worker}
    (h : worker.InCallback slot) : worker.Serves slot := by
  match worker, h with
  | .handling _ _ _, h => exact h
  | .calling _ _ (.send _ _ _), h => exact h
  | .popped _ _ (.send _ _ _) _, h => exact h

theorem Worker.inCallback_of_responding {worker : Worker}
    (h : worker.Responding slot) : worker.InCallback slot := by
  match worker, h with
  | .calling _ _ (.send _ _ _), h => exact h
  | .popped _ _ (.send _ _ _) _, h => exact h

/-- What a slot can rely on: its turns and callbacks do not overlap, its
conversation is in order, and a response that is owing is being sent. -/
structure Serialised (contract : Contract) (s : State n) : Prop where
  turns : ∀ slot, tokens slot s ≤ 1
  exclusive : ∀ slot v w, (s.workers v).InCallback slot →
    (s.workers w).InCallback slot → v = w
  ordered : ∀ slot, (phaseOf contract slot s.log).isSome
  answered : ∀ slot received,
    phaseOf contract slot s.log = some (.owing received) →
      s.crash = none ∧ ∃ w, (s.workers w).InCallback slot

/-- Two workers never run the receive callback for the same slot, whatever the
receive callback does and whichever socket calls fail. -/
theorem eq_of_inCallback {guard : State n → Event α n → Prop}
    (hs : Reachable (State.step c handler) (Started c) guard s) {v w : Fin n}
    (hv : (s.workers v).InCallback slot) (hw : (s.workers w).InCallback slot) :
    v = w :=
  (alone_of_worker (tokens_le_one hs slot)
    (Worker.serves_of_inCallback hw)).2.2 v (Worker.serves_of_inCallback hv)

theorem conversing_initialized (contract : Contract) (n : ℕ) (c : Config)
    (hg bg : Pointer → List UInt8) :
    Conversing contract (initialized n c hg bg) where
  operations := fun op hop => by
    rcases hop with hmem | ⟨w, b, hw⟩
    · cases hmem
    · cases hw
  workers := fun _ => trivial
  main := fun _ _ => rfl
  ordered := fun _ => rfl
  answered := by rintro _ _ ⟨⟩

/-- While pops succeed and workers do their duty, conversations are in order. -/
theorem conversing_of_proper
    (hs : Reachable (State.step c handler) (Started c)
      (Proper contract c handler) s) : Conversing contract s := by
  induction hs with
  | start hstart =>
      obtain ⟨hg, bg, rfl⟩ := hstart
      exact conversing_initialized contract n c hg bg
  | next hreached hproper hstep ih =>
      obtain ⟨hsound, hbuffers⟩ := sound_of_reachable hreached
      obtain ⟨hcrash, h⟩ := State.step_cases hstep
      exact ih.step hsound hbuffers (tokens_le_one hreached) hproper hcrash h

theorem serialised_of_proper
    (hs : Reachable (State.step c handler) (Started c)
      (Proper contract c handler) s) : Serialised contract s where
  turns := tokens_le_one hs
  exclusive := fun _ _ _ => eq_of_inCallback hs
  ordered := (conversing_of_proper hs).ordered
  answered := fun slot received howing => by
    obtain ⟨hcrash, w, hw⟩ :=
      (conversing_of_proper hs).answered slot received howing
    exact ⟨hcrash, w, Worker.inCallback_of_responding hw⟩

end RankingServer.Network
