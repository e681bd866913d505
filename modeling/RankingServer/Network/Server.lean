import RankingServer.Foundation.Transition
import RankingServer.Network.Client
import RankingServer.Network.OverlappedPool

/-!
# The network server

`NetworkManager::Ready` posts one accept for each client and starts the worker
threads, all of which run `Session::Process` on one completion port.  A state
holds the pool of operations, the objects it hands out, the operations that the
system has in its hands, and the program point of every thread; a step is one
action of one thread or one event of a connection.  Queue calls are single steps
here, their interleaving is the subject of `RankingServer.Network.QueueThreads`.

What the receive callback does is a parameter, and so is the answer that it gets
from outside the server.  The log records the operations posted, the bytes that
arrived and the callbacks, newest first; no step reads it.
-/

namespace RankingServer.Network

open Utility

/-! ## What the state is made of -/

/-- The number of cells given to `mOverlappedQueue` and the number of clients
asked for, which is an `int`. -/
structure Config where
  poolSize : ℕ
  socketMax : ℕ
  poolSize_pos : 0 < poolSize
  socketMax_lt : socketMax < 2 ^ 31

/-- The server that `main` starts. -/
def mainConfig : Config := ⟨POOL_SIZE, SOCKET_MAX, POOL_SIZE_pos, by decide⟩

/-- The keys of `mClientMap`. -/
def Config.IsSlot (c : Config) (key : ℕ) : Prop :=
  1 ≤ key ∧ key ≤ c.socketMax

instance (c : Config) (key : ℕ) : Decidable (c.IsSlot key) :=
  inferInstanceAs (Decidable (_ ∧ _))

/-- How a call of the receive callback ends: it returns, it calls
`NetworkManager::Send` and returns, or it takes the process down. -/
inductive Reaction
  | returns
  | sends (socketId contentsType : ℕ) (bodyBuffer : List UInt8)
  | aborts
deriving DecidableEq, Repr

/-- The receive callback: it depends on whether `RankingSystem::Ready` has
stored the send callback, and on the answer of the cache. -/
abbrev Handler (α : Type*) := Bool → Received → α → Reaction

/-- The calls that hand an object to the system. -/
inductive SocketCall
  | acceptEx
  | wsaRecv
  | wsaSend
deriving DecidableEq, Repr

/-- The operation type that goes with a call. -/
def SocketCall.operationType : SocketCall → OperationType
  | acceptEx => .opAccept
  | wsaRecv => .opRecv
  | wsaSend => .opSend

/-- A completion packet: `GetQueuedCompletionStatus` returns `FALSE` for it, or
`TRUE` with the number of bytes. -/
inductive Completion
  | failed
  | done (bytesTransferred : ℕ)
deriving DecidableEq, Repr

/-- An operation in the hands of the system, on the socket of a slot. -/
structure Operation where
  overlapped : Pointer
  call : SocketCall
  slot : ℕ
  completion : Option Completion
deriving DecidableEq, Repr

/-- The key of the completion: accepts complete on the listening socket. -/
def Operation.completionKey (op : Operation) : ℕ :=
  match op.call with
  | .acceptEx => 0
  | .wsaRecv | .wsaSend => op.slot

inductive Connection
  | closed
  | live
  | ended
deriving DecidableEq, Repr

/-- A call of `ReceiveReady` on a worker's own client, or of
`NetworkManager::Send`. -/
inductive Call
  | receiveReady
  | send (socketId contentsType : ℕ) (bodyBuffer : List UInt8)
deriving DecidableEq, Repr

/-- The program points of `Session::Process`.  The first argument is the object
of the completion at hand, `p` the one that was popped. -/
inductive Worker
  | unstarted
  | waiting
  | dispatching (op : Operation) (bytesTransferred : ℕ)
  | handling (overlapped : Pointer) (slot : ℕ) (received : Received)
  | calling (overlapped : Pointer) (slot : ℕ) (call : Call)
  | popped (overlapped : Pointer) (slot : ℕ) (call : Call) (p : Pointer)
  | recycling (overlapped : Pointer)
deriving DecidableEq, Repr

/-- The program points of the main thread: the loop of `NetworkManager::Ready`
over the clients, the loop that starts the workers, and what follows
`RankingSystem::Ready`. -/
inductive Main
  | accepting (clients : List ℕ)
  | popped (slot : ℕ) (clients : List ℕ) (p : Pointer)
  | spawning (started : ℕ)
  | working
deriving DecidableEq, Repr

inductive Crash
  | nullPointer
  | aborted
deriving DecidableEq, Repr

inductive Entry
  | accepting (slot : ℕ)
  | receiving (slot : ℕ) (connection : Connection)
  | arrived (slot : ℕ) (data : List UInt8)
  | called (slot : ℕ) (received : Received)
  | sent (slot : ℕ) (wire : List UInt8)
deriving DecidableEq, Repr

structure State (n : ℕ) where
  mOverlappedQueue : LockFreeCircleQueue (Option Pointer)
  heap : Pointer → CustomOverlapped
  posted : List Operation
  connection : ℕ → Connection
  main : Main
  workers : Fin n → Worker
  mSendCallback : Bool
  crash : Option Crash
  log : List Entry

/-- Events.  `ok` says that the socket calls of the step succeed, `k` which of
the posted operations is meant. -/
inductive Event (α : Type*) (n : ℕ)
  | main (ok : Bool)
  | dequeue (w : Fin n) (k : ℕ)
  | work (w : Fin n) (ok : Bool) (answer : α)
  | complete (k : ℕ) (data : List UInt8)
  | fail (k : ℕ)

/-- The state when `NetworkManager::Initialize` returns. -/
def initialized (n : ℕ) (c : Config)
    (headerGarbage bodyGarbage : Pointer → List UInt8) : State n where
  mOverlappedQueue := overlappedQueue c.poolSize c.poolSize_pos
  heap := fun o => .construct (headerGarbage o) (bodyGarbage o)
  posted := []
  connection := fun _ => .closed
  main := .accepting (List.range' 1 c.socketMax)
  workers := fun _ => .unstarted
  mSendCallback := false
  crash := none
  log := []

/-! ## The calls -/

/-- The object that `NetworkManager::Send` has `Client::Send` pass on. -/
def NetworkManager.send (socketId contentsType : ℕ) (bodyBuffer : List UInt8)
    (o : CustomOverlapped) : CustomOverlapped :=
  Client.send
    ⟨htonl socketId, htonl bodyBuffer.length, htonl contentsType⟩
    bodyBuffer bodyBuffer.length o

namespace Call

/-- The client on which the call is made. -/
def target (slot : ℕ) : Call → ℕ
  | receiveReady => slot
  | send socketId _ _ => socketId

def socketCall : Call → SocketCall
  | receiveReady => .wsaRecv
  | send _ _ _ => .wsaSend

/-- What the call makes of the object it popped. -/
def prepare : Call → CustomOverlapped → CustomOverlapped
  | receiveReady => Client.receiveReady
  | send socketId contentsType bodyBuffer =>
      NetworkManager.send socketId contentsType bodyBuffer

/-- The call returns before it pops an object: for an error on the socket, or
when there is no such client. -/
def ReturnsEarly (c : Config) (ok : Bool) : Call → Prop
  | receiveReady => ok = false
  | send socketId _ _ => ¬ c.IsSlot socketId

instance (c : Config) (ok : Bool) : DecidablePred (ReturnsEarly c ok)
  | receiveReady => inferInstanceAs (Decidable (_ = _))
  | send _ _ _ => inferInstanceAs (Decidable (¬ _))

/-- The reaction that leads a worker to the call. -/
def reaction : Call → Reaction
  | receiveReady => .returns
  | send socketId contentsType bodyBuffer =>
      .sends socketId contentsType bodyBuffer

/-- Where the worker goes on after the call. -/
def after (overlapped : Pointer) (slot : ℕ) : Call → Worker
  | receiveReady => .recycling overlapped
  | send _ _ _ => .calling overlapped slot .receiveReady

/-- The entry for the operation that the call posted. -/
def entry (slot : ℕ) (connection : ℕ → Connection) (o : CustomOverlapped) :
    Call → Entry
  | receiveReady => .receiving slot (connection slot)
  | send socketId _ _ => .sent socketId o.wire

end Call

/-- The switch in `Session::Process`.  A client that is not found sends the
worker back to the port without its object. -/
def Session.dispatch (c : Config) (o : CustomOverlapped) (overlapped : Pointer)
    (completionKey bytesTransferred : ℕ) : Worker :=
  match o.mOperationType with
  | .opAccept =>
      if c.IsSlot (acceptedSlot o) then
        .calling overlapped (acceptedSlot o) .receiveReady
      else .waiting
  | .opRecv =>
      if c.IsSlot completionKey then
        if bytesTransferred = 0 then
          .calling overlapped completionKey .receiveReady
        else .handling overlapped completionKey (received completionKey o)
      else .waiting
  | .opSend | .opDefault => .recycling overlapped

/-! ## Steps -/

namespace State

variable {n : ℕ}

def setWorker (s : State n) (w : Fin n) (next : Worker) : State n :=
  { s with workers := Function.update s.workers w next }

def setObject (s : State n) (p : Pointer) (o : CustomOverlapped) : State n :=
  { s with heap := Function.update s.heap p o }

def post (s : State n) (op : Operation) (entry : Entry) : State n :=
  { s with posted := op :: s.posted, log := entry :: s.log }

/-- The main thread from `NetworkManager::Ready` to the end of
`RankingSystem::Ready`. -/
def mainStep (ok : Bool) (s : State n) : Option (State n) :=
  match s.main with
  | .accepting [] => some { s with main := .spawning 0 }
  | .accepting (slot :: clients) =>
      if ok then
        match s.mOverlappedQueue.pop.2 with
        | none => some { s with crash := some .nullPointer }
        | some p => some
            { s with
              mOverlappedQueue := s.mOverlappedQueue.pop.1
              main := .popped slot clients p }
      else some { s with main := .accepting clients }
  | .popped slot clients p =>
      let prepared := { s.setObject p (Client.acceptReady slot (s.heap p)) with
        main := .accepting clients }
      if ok then
        some (prepared.post ⟨p, .acceptEx, slot, none⟩ (.accepting slot))
      else some prepared
  | .spawning k =>
      if h : k < n then
        some { s.setWorker ⟨k, h⟩ .waiting with main := .spawning (k + 1) }
      else some { s with mSendCallback := true, main := .working }
  | .working => none

/-- `GetQueuedCompletionStatus`; after a failure `Process` goes back to the port
at once. -/
def dequeue (w : Fin n) (k : ℕ) (s : State n) : Option (State n) :=
  match s.workers w, s.posted[k]? with
  | .waiting, some op =>
      match op.completion with
      | none => none
      | some .failed => some { s with posted := s.posted.eraseIdx k }
      | some (.done bytesTransferred) => some
          { s.setWorker w (.dispatching op bytesTransferred) with
            posted := s.posted.eraseIdx k }
  | _, _ => none

/-- A worker from the switch on. -/
def work {α : Type*} (c : Config) (handler : Handler α) (w : Fin n) (ok : Bool)
    (answer : α) (s : State n) : Option (State n) :=
  match s.workers w with
  | .unstarted | .waiting => none
  | .dispatching op bytesTransferred =>
      some (s.setWorker w (Session.dispatch c (s.heap op.overlapped)
        op.overlapped op.completionKey bytesTransferred))
  | .handling overlapped slot received =>
      let called := { s with log := .called slot received :: s.log }
      match handler s.mSendCallback received answer with
      | .returns => some
          (called.setWorker w (.calling overlapped slot .receiveReady))
      | .sends socketId contentsType bodyBuffer => some
          (called.setWorker w (.calling overlapped slot
            (.send socketId contentsType bodyBuffer)))
      | .aborts => some { called with crash := some .aborted }
  | .calling overlapped slot call =>
      if call.ReturnsEarly c ok then
        some (s.setWorker w (call.after overlapped slot))
      else
        match s.mOverlappedQueue.pop.2 with
        | none => some { s with crash := some .nullPointer }
        | some p => some
            { s.setWorker w (.popped overlapped slot call p) with
              mOverlappedQueue := s.mOverlappedQueue.pop.1 }
  | .popped overlapped slot call p =>
      let prepared := (s.setObject p (call.prepare (s.heap p))).setWorker w
        (call.after overlapped slot)
      if ok then
        some (prepared.post ⟨p, call.socketCall, call.target slot, none⟩
          (call.entry slot s.connection (call.prepare (s.heap p))))
      else some prepared
  | .recycling overlapped =>
      some
        { (s.setObject overlapped (s.heap overlapped).clear).setWorker w
            .waiting with
          mOverlappedQueue := (s.mOverlappedQueue.push (some overlapped)).1 }

/-- A posted operation completes.  A connection is accepted on a slot that has
none; a receive of zero bytes is the end of the connection. -/
def complete (k : ℕ) (data : List UInt8) (s : State n) : Option (State n) :=
  match s.posted[k]? with
  | none => none
  | some op =>
      let o := s.heap op.overlapped
      match op.completion, op.call with
      | some _, _ => none
      | none, .acceptEx =>
          if s.connection op.slot = .closed then some
            { s.setObject op.overlapped (o.acceptAddresses data) with
              posted := s.posted.set k { op with completion := some (.done 0) }
              connection := Function.update s.connection op.slot .live }
          else none
      | none, .wsaRecv =>
          if data.length ≤ o.headerLen + o.bodyLen ∧
              (data = [] ∨ s.connection op.slot = .live) then some
            { s.setObject op.overlapped (o.receive data) with
              posted := s.posted.set k
                { op with completion := some (.done data.length) }
              connection :=
                if data = [] then Function.update s.connection op.slot .ended
                else s.connection
              log := .arrived op.slot data :: s.log }
          else none
      | none, .wsaSend => some
          { s with
            posted := s.posted.set k
              { op with completion := some (.done o.wire.length) } }

/-- A posted operation fails, which is the end of the connection unless it was a
send. -/
def fail (k : ℕ) (s : State n) : Option (State n) :=
  match s.posted[k]? with
  | none => none
  | some op =>
      match op.completion with
      | some _ => none
      | none => some
          { s with
            posted := s.posted.set k { op with completion := some .failed }
            connection :=
              if op.call = .wsaSend then s.connection
              else Function.update s.connection op.slot .ended }

/-- One step of a server that has not crashed. -/
def step {α : Type*} (c : Config) (handler : Handler α) (s : State n)
    (e : Event α n) : Option (State n) :=
  if s.crash.isSome then none
  else
    match e with
    | .main ok => s.mainStep ok
    | .dequeue w k => s.dequeue w k
    | .work w ok answer => s.work c handler w ok answer
    | .complete k data => s.complete k data
    | .fail k => s.fail k

end State

/-! ## What a step can do -/

/-- The steps, one constructor for each way the state can change. -/
inductive Step {α : Type*} {n : ℕ} (c : Config) (handler : Handler α)
    (s : State n) : Event α n → State n → Prop
  | acceptEnd {ok : Bool} :
      s.main = .accepting [] →
        Step c handler s (.main ok) { s with main := .spawning 0 }
  | acceptSkip {slot : ℕ} {clients : List ℕ} :
      s.main = .accepting (slot :: clients) →
        Step c handler s (.main false) { s with main := .accepting clients }
  | acceptNull {slot : ℕ} {clients : List ℕ} :
      s.main = .accepting (slot :: clients) →
        s.mOverlappedQueue.pop.2 = none →
        Step c handler s (.main true) { s with crash := some .nullPointer }
  | acceptPop {slot : ℕ} {clients : List ℕ} {p : Pointer} :
      s.main = .accepting (slot :: clients) →
        s.mOverlappedQueue.pop.2 = some p →
        Step c handler s (.main true)
          { s with
            mOverlappedQueue := s.mOverlappedQueue.pop.1
            main := .popped slot clients p }
  | acceptPost {slot : ℕ} {clients : List ℕ} {p : Pointer} :
      s.main = .popped slot clients p →
        Step c handler s (.main true)
          (({ s.setObject p (Client.acceptReady slot (s.heap p)) with
              main := .accepting clients }).post
            ⟨p, .acceptEx, slot, none⟩ (.accepting slot))
  | acceptRefused {slot : ℕ} {clients : List ℕ} {p : Pointer} :
      s.main = .popped slot clients p →
        Step c handler s (.main false)
          { s.setObject p (Client.acceptReady slot (s.heap p)) with
            main := .accepting clients }
  | spawn {ok : Bool} {k : ℕ} (hk : k < n) :
      s.main = .spawning k →
        Step c handler s (.main ok)
          { s.setWorker ⟨k, hk⟩ .waiting with main := .spawning (k + 1) }
  | install {ok : Bool} {k : ℕ} :
      s.main = .spawning k → ¬ k < n →
        Step c handler s (.main ok)
          { s with mSendCallback := true, main := .working }
  | dequeueFailed {w : Fin n} {k : ℕ} {op : Operation} :
      s.workers w = .waiting → s.posted[k]? = some op →
        op.completion = some .failed →
        Step c handler s (.dequeue w k)
          { s with posted := s.posted.eraseIdx k }
  | dequeueDone {w : Fin n} {k bytesTransferred : ℕ} {op : Operation} :
      s.workers w = .waiting → s.posted[k]? = some op →
        op.completion = some (.done bytesTransferred) →
        Step c handler s (.dequeue w k)
          { s.setWorker w (.dispatching op bytesTransferred) with
            posted := s.posted.eraseIdx k }
  | dispatch {w : Fin n} {ok : Bool} {answer : α} {op : Operation}
      {bytesTransferred : ℕ} :
      s.workers w = .dispatching op bytesTransferred →
        Step c handler s (.work w ok answer)
          (s.setWorker w (Session.dispatch c (s.heap op.overlapped)
            op.overlapped op.completionKey bytesTransferred))
  | handled {w : Fin n} {ok : Bool} {answer : α} {overlapped : Pointer}
      {slot : ℕ} {received : Received} {call : Call} :
      s.workers w = .handling overlapped slot received →
        handler s.mSendCallback received answer = call.reaction →
        Step c handler s (.work w ok answer)
          (({ s with log := .called slot received :: s.log }).setWorker w
            (.calling overlapped slot call))
  | aborted {w : Fin n} {ok : Bool} {answer : α} {overlapped : Pointer}
      {slot : ℕ} {received : Received} :
      s.workers w = .handling overlapped slot received →
        handler s.mSendCallback received answer = .aborts →
        Step c handler s (.work w ok answer)
          { s with
            log := .called slot received :: s.log
            crash := some .aborted }
  | returnEarly {w : Fin n} {ok : Bool} {answer : α} {overlapped : Pointer}
      {slot : ℕ} {call : Call} :
      s.workers w = .calling overlapped slot call →
        call.ReturnsEarly c ok →
        Step c handler s (.work w ok answer)
          (s.setWorker w (call.after overlapped slot))
  | popNull {w : Fin n} {ok : Bool} {answer : α} {overlapped : Pointer}
      {slot : ℕ} {call : Call} :
      s.workers w = .calling overlapped slot call →
        ¬ call.ReturnsEarly c ok → s.mOverlappedQueue.pop.2 = none →
        Step c handler s (.work w ok answer)
          { s with crash := some .nullPointer }
  | pop {w : Fin n} {ok : Bool} {answer : α} {overlapped : Pointer}
      {slot : ℕ} {call : Call} {p : Pointer} :
      s.workers w = .calling overlapped slot call →
        ¬ call.ReturnsEarly c ok → s.mOverlappedQueue.pop.2 = some p →
        Step c handler s (.work w ok answer)
          { s.setWorker w (.popped overlapped slot call p) with
            mOverlappedQueue := s.mOverlappedQueue.pop.1 }
  | post {w : Fin n} {answer : α} {overlapped : Pointer} {slot : ℕ}
      {call : Call} {p : Pointer} :
      s.workers w = .popped overlapped slot call p →
        Step c handler s (.work w true answer)
          (((s.setObject p (call.prepare (s.heap p))).setWorker w
            (call.after overlapped slot)).post
              ⟨p, call.socketCall, call.target slot, none⟩
              (call.entry slot s.connection (call.prepare (s.heap p))))
  | refused {w : Fin n} {answer : α} {overlapped : Pointer} {slot : ℕ}
      {call : Call} {p : Pointer} :
      s.workers w = .popped overlapped slot call p →
        Step c handler s (.work w false answer)
          ((s.setObject p (call.prepare (s.heap p))).setWorker w
            (call.after overlapped slot))
  | recycle {w : Fin n} {ok : Bool} {answer : α} {overlapped : Pointer} :
      s.workers w = .recycling overlapped →
        Step c handler s (.work w ok answer)
          { (s.setObject overlapped (s.heap overlapped).clear).setWorker w
              .waiting with
            mOverlappedQueue :=
              (s.mOverlappedQueue.push (some overlapped)).1 }
  | acceptDone {k : ℕ} {data : List UInt8} {p : Pointer} {slot : ℕ} :
      s.posted[k]? = some ⟨p, .acceptEx, slot, none⟩ →
        s.connection slot = .closed →
        Step c handler s (.complete k data)
          { s.setObject p ((s.heap p).acceptAddresses data) with
            posted := s.posted.set k ⟨p, .acceptEx, slot, some (.done 0)⟩
            connection := Function.update s.connection slot .live }
  | recvDone {k : ℕ} {data : List UInt8} {p : Pointer} {slot : ℕ} :
      s.posted[k]? = some ⟨p, .wsaRecv, slot, none⟩ →
        data.length ≤ (s.heap p).headerLen + (s.heap p).bodyLen →
        data = [] ∨ s.connection slot = .live →
        Step c handler s (.complete k data)
          { s.setObject p ((s.heap p).receive data) with
            posted := s.posted.set k
              ⟨p, .wsaRecv, slot, some (.done data.length)⟩
            connection :=
              if data = [] then Function.update s.connection slot .ended
              else s.connection
            log := .arrived slot data :: s.log }
  | sendDone {k : ℕ} {data : List UInt8} {p : Pointer} {slot : ℕ} :
      s.posted[k]? = some ⟨p, .wsaSend, slot, none⟩ →
        Step c handler s (.complete k data)
          { s with
            posted := s.posted.set k
              ⟨p, .wsaSend, slot, some (.done (s.heap p).wire.length)⟩ }
  | fail {k : ℕ} {op : Operation} :
      s.posted[k]? = some op → op.completion = none →
        Step c handler s (.fail k)
          { s with
            posted := s.posted.set k { op with completion := some .failed }
            connection :=
              if op.call = .wsaSend then s.connection
              else Function.update s.connection op.slot .ended }

namespace State

variable {α : Type*} {n : ℕ} {c : Config} {handler : Handler α}
  {s s' : State n}

theorem step_of_mainStep {ok : Bool} (h : s.mainStep ok = some s') :
    Step c handler s (.main ok) s' := by
  rw [mainStep] at h
  split at h
  · next hmain =>
      cases h
      exact .acceptEnd hmain
  · next hmain =>
      cases ok with
      | false =>
          cases h
          exact .acceptSkip hmain
      | true =>
          simp only [if_true] at h
          split at h
          · next hpop =>
              cases h
              exact .acceptNull hmain hpop
          · next hpop =>
              cases h
              exact .acceptPop hmain hpop
  · next hmain =>
      cases ok with
      | false =>
          cases h
          exact .acceptRefused hmain
      | true =>
          cases h
          exact .acceptPost hmain
  · next hmain =>
      split at h
      · next hk =>
          cases h
          exact .spawn hk hmain
      · next hk =>
          cases h
          exact .install hmain hk
  · cases h

theorem step_of_dequeue {w : Fin n} {k : ℕ} (h : s.dequeue w k = some s') :
    Step c handler s (.dequeue w k) s' := by
  rw [dequeue] at h
  split at h
  · next hwaiting hget =>
      split at h
      · cases h
      · next hfailed =>
          cases h
          exact .dequeueFailed hwaiting hget hfailed
      · next hdone =>
          cases h
          exact .dequeueDone hwaiting hget hdone
  · cases h

theorem step_of_work {w : Fin n} {ok : Bool} {answer : α}
    (h : s.work c handler w ok answer = some s') :
    Step c handler s (.work w ok answer) s' := by
  rw [work] at h
  split at h
  · cases h
  · cases h
  · next hdispatching =>
      cases h
      exact .dispatch hdispatching
  · next hhandling =>
      split at h
      · next hreturns =>
          cases h
          have hreaction : handler s.mSendCallback _ answer =
              Call.receiveReady.reaction := hreturns
          exact .handled hhandling hreaction
      · next socketId contentsType bodyBuffer hsends =>
          cases h
          have hreaction : handler s.mSendCallback _ answer =
              (Call.send socketId contentsType bodyBuffer).reaction := hsends
          exact .handled hhandling hreaction
      · next haborts =>
          cases h
          exact .aborted hhandling haborts
  · next hcalling =>
      split at h
      · next hearly =>
          cases h
          exact .returnEarly hcalling hearly
      · next hearly =>
          split at h
          · next hpop =>
              cases h
              exact .popNull hcalling hearly hpop
          · next hpop =>
              cases h
              exact .pop hcalling hearly hpop
  · next hpopped =>
      cases ok with
      | false =>
          cases h
          exact .refused hpopped
      | true =>
          cases h
          exact .post hpopped
  · next hrecycling =>
      cases h
      exact .recycle hrecycling

theorem step_of_complete {k : ℕ} {data : List UInt8}
    (h : s.complete k data = some s') :
    Step c handler s (.complete k data) s' := by
  rw [complete] at h
  split at h
  · cases h
  · next op hget =>
      obtain ⟨p, call, slot, completion⟩ := op
      split at h
      · cases h
      · next hnone haccept =>
          obtain rfl : completion = none := hnone
          obtain rfl : call = .acceptEx := haccept
          split at h
          · next hclosed =>
              cases h
              exact .acceptDone hget hclosed
          · cases h
      · next hnone hrecv =>
          obtain rfl : completion = none := hnone
          obtain rfl : call = .wsaRecv := hrecv
          by_cases hfits : data.length ≤ (s.heap p).headerLen +
              (s.heap p).bodyLen ∧ (data = [] ∨ s.connection slot = .live)
          · rw [if_pos hfits] at h
            cases h
            exact .recvDone hget hfits.1 hfits.2
          · rw [if_neg hfits] at h
            cases h
      · next hnone hsend =>
          obtain rfl : completion = none := hnone
          obtain rfl : call = .wsaSend := hsend
          cases h
          exact .sendDone hget

theorem step_of_fail {k : ℕ} (h : s.fail k = some s') :
    Step c handler s (.fail k) s' := by
  rw [fail] at h
  split at h
  · cases h
  · next hget =>
      split at h
      · cases h
      · next hnone =>
          cases h
          exact .fail hget hnone

/-- Every step is one of the listed ones, from a state without a crash. -/
theorem step_cases {e : Event α n} (h : s.step c handler e = some s') :
    s.crash = none ∧ Step c handler s e s' := by
  unfold step at h
  split at h
  · cases h
  · next hcrash =>
      refine ⟨by simpa using hcrash, ?_⟩
      cases e with
      | main ok => exact step_of_mainStep h
      | dequeue w k => exact step_of_dequeue h
      | work w ok answer => exact step_of_work h
      | complete k data => exact step_of_complete h
      | fail k => exact step_of_fail h

/-- Each of the listed steps can be taken. -/
theorem step_eq_some {e : Event α n} (hcrash : s.crash = none)
    (h : Step c handler s e s') : s.step c handler e = some s' := by
  unfold step
  simp only [hcrash, Option.isSome_none, Bool.false_eq_true, if_false]
  cases h with
  | acceptEnd hmain => simp only [mainStep, hmain]
  | acceptSkip hmain => simp [mainStep, hmain]
  | acceptNull hmain hpop => simp [mainStep, hmain, hpop]
  | acceptPop hmain hpop => simp [mainStep, hmain, hpop]
  | acceptPost hmain => simp [mainStep, hmain]
  | acceptRefused hmain => simp [mainStep, hmain]
  | spawn hk hmain => simp [mainStep, hmain, hk]
  | install hmain hk => simp [mainStep, hmain, hk]
  | dequeueFailed hwaiting hget hfailed =>
      simp [dequeue, hwaiting, hget, hfailed]
  | dequeueDone hwaiting hget hdone => simp [dequeue, hwaiting, hget, hdone]
  | dispatch hdispatching => simp only [work, hdispatching]
  | @handled w ok answer overlapped slot received call hhandling hreaction =>
      cases call with
      | receiveReady =>
          simp only [Call.reaction] at hreaction
          simp only [work, hhandling, hreaction]
      | send socketId contentsType bodyBuffer =>
          simp only [Call.reaction] at hreaction
          simp only [work, hhandling, hreaction]
  | aborted hhandling haborts => simp only [work, hhandling, haborts]
  | returnEarly hcalling hearly => simp [work, hcalling, hearly]
  | popNull hcalling hearly hpop => simp [work, hcalling, hearly, hpop]
  | pop hcalling hearly hpop => simp [work, hcalling, hearly, hpop]
  | post hpopped => simp [work, hpopped]
  | refused hpopped => simp [work, hpopped]
  | recycle hrecycling => simp only [work, hrecycling]
  | acceptDone hget hclosed => simp [complete, hget, hclosed]
  | recvDone hget hfits hlive =>
      simp only [complete, hget]
      rw [if_pos ⟨hfits, hlive⟩]
  | sendDone hget => simp only [complete, hget]
  | fail hget hnone => simp only [State.fail, hget, hnone]

end State

end RankingServer.Network
