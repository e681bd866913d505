import RankingServer.Network.Weight

/-!
# Where the objects of the pool are

Every step moves an object from one place to another or drops it.  One analysis
of the steps, with an arbitrary weight for the objects, serves both for single
objects and for their number.  The invariant `Sound` says in addition that the
objects agree with the operations they are used for, which rules out the lookup
misses of `Session::Process` and the refused push.
-/

namespace RankingServer.Network

open Accounting Transition Utility
open scoped BigOperators

/-! ## The weight of the objects -/

/-- Each place contributes `f` of the objects in it. -/
def holding (f : Pointer → ℕ) : Weight where
  inQueue := f
  ofOperation op := f op.overlapped
  ofMain
    | .popped _ _ p => f p
    | .accepting _ | .spawning _ | .working => 0
  ofWorker
    | .unstarted | .waiting => 0
    | .dispatching op _ => f op.overlapped
    | .handling overlapped _ _ | .calling overlapped _ _
    | .recycling overlapped => f overlapped
    | .popped overlapped _ _ p => f overlapped + f p

/-- The number of places in which an object is. -/
def places {n : ℕ} (o : Pointer) (s : State n) : ℕ :=
  (holding fun p => if p = o then 1 else 0).total s

/-- The number of objects in all places. -/
def objects {n : ℕ} (s : State n) : ℕ := (holding fun _ => 1).total s

/-- The step drops an object: a worker goes back to the port after a failed
completion, or the call that was to pass the object on fails at once. -/
def Drops {α : Type*} {n : ℕ} (s : State n) : Event α n → Prop
  | .main ok =>
      match s.main with
      | .popped _ _ _ => ok = false
      | .accepting _ | .spawning _ | .working => False
  | .dequeue _ k => s.posted[k]?.bind Operation.completion = some .failed
  | .work w ok _ =>
      match s.workers w with
      | .popped _ _ _ _ => ok = false
      | _ => False
  | .complete _ _ | .fail _ => False

/-! ## Soundness -/

/-- The object of an operation is marked for it. -/
structure OperationSound (c : Config) (heap : Pointer → CustomOverlapped)
    (op : Operation) : Prop where
  slot : c.IsSlot op.slot
  operationType :
    (heap op.overlapped).mOperationType = op.call.operationType
  accepted : op.call = .acceptEx →
    Session.acceptedSlot (heap op.overlapped) = op.slot

/-- The operations whose objects still belong to them: those posted, and those
that a worker dequeued but has not looked at. -/
def InUse {n : ℕ} (posted : List Operation) (workers : Fin n → Worker)
    (op : Operation) : Prop :=
  op ∈ posted ∨
    ∃ w bytesTransferred, workers w = .dispatching op bytesTransferred

def WorkerSound (c : Config) : Worker → Prop
  | .unstarted | .waiting | .recycling _ => True
  | .dispatching op b => op.completion = some (.done b)
  | .handling _ slot _ | .calling _ slot _ => c.IsSlot slot
  | .popped _ slot call _ => c.IsSlot slot ∧ c.IsSlot (call.target slot)

def MainSound (c : Config) : Main → Prop
  | .accepting clients => ∀ slot ∈ clients, c.IsSlot slot
  | .popped slot clients _ => c.IsSlot slot ∧ ∀ slot ∈ clients, c.IsSlot slot
  | .spawning _ | .working => True

/-- The main thread has yet to start the worker. -/
def Main.Precedes (w : ℕ) : Main → Prop
  | .accepting _ | .popped _ _ _ => True
  | .spawning started => started ≤ w
  | .working => False

/-- What holds in every state of a run. -/
structure Sound {n : ℕ} (c : Config) (s : State n) : Prop where
  queueSize : s.mOverlappedQueue.mQueueMaxSize = c.poolSize
  noNull : none ∉ s.mOverlappedQueue.contents
  objects_lt : objects s < c.poolSize
  places_le : ∀ o, places o s ≤ 1
  operations : ∀ op, InUse s.posted s.workers op → OperationSound c s.heap op
  workers : ∀ w, WorkerSound c (s.workers w)
  main : MainSound c s.main
  unstarted : ∀ w : Fin n, s.main.Precedes w → s.workers w = .unstarted

/-- Where the switch leads for an object that is marked for its operation. -/
def Session.dispatched (o : CustomOverlapped) (op : Operation)
    (bytesTransferred : ℕ) : Worker :=
  match op.call with
  | .acceptEx => .calling op.overlapped op.slot .receiveReady
  | .wsaRecv =>
      if bytesTransferred = 0 then .calling op.overlapped op.slot .receiveReady
      else .handling op.overlapped op.slot (received op.slot o)
  | .wsaSend => .recycling op.overlapped

theorem OperationSound.dispatch_eq {c : Config}
    {heap : Pointer → CustomOverlapped} {op : Operation}
    (h : OperationSound c heap op) (bytesTransferred : ℕ) :
    Session.dispatch c (heap op.overlapped) op.overlapped op.completionKey
        bytesTransferred =
      Session.dispatched (heap op.overlapped) op bytesTransferred := by
  have hslot := h.slot
  have htype := h.operationType
  have haccepted := h.accepted
  cases hcall : op.call with
  | acceptEx =>
      rw [hcall] at htype haccepted
      simp only [Session.dispatch, Session.dispatched, htype, hcall,
        SocketCall.operationType, haccepted, if_pos hslot]
  | wsaRecv =>
      rw [hcall] at htype
      simp only [Session.dispatch, Session.dispatched, htype, hcall,
        SocketCall.operationType, Operation.completionKey, if_pos hslot]
  | wsaSend =>
      rw [hcall] at htype
      simp only [Session.dispatch, Session.dispatched, htype, hcall,
        SocketCall.operationType]

@[simp] theorem holding_ofWorker_dispatched (f : Pointer → ℕ)
    (o : CustomOverlapped) (op : Operation) (bytesTransferred : ℕ) :
    (holding f).ofWorker (Session.dispatched o op bytesTransferred) =
      f op.overlapped := by
  rw [Session.dispatched]
  split
  · rfl
  · split <;> rfl
  · rfl

@[simp] theorem holding_ofWorker_after (f : Pointer → ℕ) (overlapped : Pointer)
    (slot : ℕ) (call : Call) :
    (holding f).ofWorker (call.after overlapped slot) = f overlapped := by
  cases call <;> rfl

theorem holding_one_ofQueue {q : LockFreeCircleQueue (Option Pointer)}
    (hnull : none ∉ q.contents) :
    (holding fun _ => 1).ofQueue q = q.contents.length := by
  have hone : q.contents.map (fun p => p.elim 0 fun _ => 1) =
      q.contents.map fun _ => 1 := by
    apply List.map_congr_left
    intro p hp
    cases p with
    | none => exact absurd hp hnull
    | some p => rfl
  rw [Weight.ofQueue]
  change (q.contents.map fun p => p.elim 0 fun _ => 1).sum = _
  rw [hone]
  simp

variable {α : Type*} {n : ℕ} {c : Config} {handler : Handler α}
  {s s' : State n} {e : Event α n}

/-- While a worker holds an object, the queue has room for it. -/
theorem Sound.room (hs : Sound c s) {w : Fin n} {overlapped : Pointer}
    (hrecycling : s.workers w = .recycling overlapped) :
    s.mOverlappedQueue.contents.length + 1 <
      s.mOverlappedQueue.mQueueMaxSize := by
  have hlt := hs.objects_lt
  have hqueue := holding_one_ofQueue hs.noNull
  have hworker := (holding fun _ => 1).le_ofWorkers s.workers w
  rw [hrecycling] at hworker
  have hone : (holding fun _ => 1).ofWorker (.recycling overlapped) = 1 := rfl
  rw [hs.queueSize]
  rw [objects, Weight.total] at hlt
  omega

/-- A step keeps all objects where they can be found, or it drops one. -/
theorem holding_step (hs : Sound c s) (h : Step c handler s e s') :
    (¬ Drops s e ∧
        ∀ f, (holding f).total s' = (holding f).total s) ∨
      (Drops s e ∧
        ∃ o, ∀ f, (holding f).total s' + f o = (holding f).total s) := by
  have hmove (w : Fin n) (next : Worker) (f : Pointer → ℕ) :=
    (holding f).total_setWorker s w next
  cases h with
  | acceptEnd hmain =>
      refine Or.inl ⟨by simp [Drops, hmain], fun f => ?_⟩
      simp only [Weight.total, hmain]
      rfl
  | acceptSkip hmain =>
      refine Or.inl ⟨by simp [Drops, hmain], fun f => ?_⟩
      simp only [Weight.total, hmain]
      rfl
  | acceptNull hmain hpop =>
      exact Or.inl ⟨by simp [Drops, hmain], fun f => rfl⟩
  | acceptPop hmain hpop =>
      refine Or.inl ⟨by simp [Drops, hmain], fun f => ?_⟩
      simp only [Weight.total, hmain, (holding f).ofQueue_pop hpop]
      simp only [holding]
      omega
  | acceptPost hmain =>
      refine Or.inl ⟨by simp [Drops, hmain], fun f => ?_⟩
      simp only [Weight.total, State.post, State.setObject, hmain,
        Weight.ofPosted_cons]
      simp only [holding]
      omega
  | @acceptRefused slot clients p hmain =>
      refine Or.inr ⟨by simp [Drops, hmain], p, fun f => ?_⟩
      simp only [Weight.total, State.setObject, hmain]
      simp only [holding]
      omega
  | @spawn _ k hk hmain =>
      refine Or.inl ⟨by simp [Drops, hmain], fun f => ?_⟩
      have hunstarted := hs.unstarted ⟨k, hk⟩ (by simp [Main.Precedes, hmain])
      have hworker := (holding f).ofWorkers_update s.workers ⟨k, hk⟩ .waiting
      rw [hunstarted] at hworker
      simp only [Weight.total, State.setWorker, hmain]
      simp only [holding] at hworker ⊢
      omega
  | install hmain hk =>
      refine Or.inl ⟨by simp [Drops, hmain], fun f => ?_⟩
      simp only [Weight.total, hmain]
      rfl
  | @dequeueFailed w k op hwaiting hget hfailed =>
      refine Or.inr ⟨by simp [Drops, hget, hfailed], op.overlapped,
        fun f => ?_⟩
      have herase := (holding f).ofPosted_eraseIdx hget
      simp only [Weight.total, ← herase]
      simp only [holding]
      omega
  | @dequeueDone w k bytesTransferred op hwaiting hget hdone =>
      refine Or.inl ⟨by simp [Drops, hget, hdone], fun f => ?_⟩
      have herase := (holding f).ofPosted_eraseIdx hget
      have hworker := (holding f).ofWorkers_update s.workers w
        (.dispatching op bytesTransferred)
      rw [hwaiting] at hworker
      simp only [Weight.total, State.setWorker, ← herase]
      simp only [holding] at hworker ⊢
      omega
  | @dispatch w _ _ op bytesTransferred hdispatching =>
      refine Or.inl ⟨by simp [Drops, hdispatching], fun f => ?_⟩
      have hsound := hs.operations op (Or.inr ⟨w, _, hdispatching⟩)
      rw [hsound.dispatch_eq]
      have hworker := hmove w (Session.dispatched (s.heap op.overlapped) op
        bytesTransferred) f
      rw [hdispatching, holding_ofWorker_dispatched] at hworker
      exact Nat.add_right_cancel hworker
  | @handled w _ _ overlapped slot received call hhandling hreaction =>
      refine Or.inl ⟨by simp [Drops, hhandling], fun f => ?_⟩
      have hworker := hmove w (.calling overlapped slot call) f
      rw [hhandling] at hworker
      exact Nat.add_right_cancel hworker
  | aborted hhandling haborts =>
      exact Or.inl ⟨by simp [Drops, hhandling], fun f => rfl⟩
  | @returnEarly w _ _ overlapped slot call hcalling hearly =>
      refine Or.inl ⟨by simp [Drops, hcalling], fun f => ?_⟩
      have hworker := hmove w (call.after overlapped slot) f
      rw [hcalling, holding_ofWorker_after] at hworker
      exact Nat.add_right_cancel hworker
  | popNull hcalling hearly hpop =>
      exact Or.inl ⟨by simp [Drops, hcalling], fun f => rfl⟩
  | @pop w _ _ overlapped slot call p hcalling hearly hpop =>
      refine Or.inl ⟨by simp [Drops, hcalling], fun f => ?_⟩
      have hworker := (holding f).ofWorkers_update s.workers w
        (.popped overlapped slot call p)
      rw [hcalling] at hworker
      simp only [Weight.total, State.setWorker, (holding f).ofQueue_pop hpop]
      simp only [holding] at hworker ⊢
      omega
  | @post w _ overlapped slot call p hpopped =>
      refine Or.inl ⟨by simp [Drops, hpopped], fun f => ?_⟩
      have hworker := (holding f).ofWorkers_update s.workers w
        (call.after overlapped slot)
      rw [hpopped, holding_ofWorker_after] at hworker
      simp only [Weight.total, State.post, State.setWorker, State.setObject,
        Weight.ofPosted_cons]
      simp only [holding] at hworker ⊢
      omega
  | @refused w _ overlapped slot call p hpopped =>
      refine Or.inr ⟨by simp [Drops, hpopped], p, fun f => ?_⟩
      have hworker := (holding f).ofWorkers_update s.workers w
        (call.after overlapped slot)
      rw [hpopped, holding_ofWorker_after] at hworker
      simp only [Weight.total, State.setWorker, State.setObject]
      simp only [holding] at hworker ⊢
      omega
  | @recycle w _ _ overlapped hrecycling =>
      refine Or.inl ⟨by simp [Drops, hrecycling], fun f => ?_⟩
      have hworker := (holding f).ofWorkers_update s.workers w .waiting
      have hpush := (holding f).ofQueue_push overlapped (hs.room hrecycling)
      rw [hrecycling] at hworker
      simp only [Weight.total, State.setWorker, State.setObject, hpush]
      simp only [holding] at hworker ⊢
      omega
  | acceptDone hget hclosed =>
      exact Or.inl ⟨id, fun f =>
        (holding f).total_of_completed hget rfl rfl rfl rfl rfl⟩
  | recvDone hget hfits hlive =>
      exact Or.inl ⟨id, fun f =>
        (holding f).total_of_completed hget rfl rfl rfl rfl rfl⟩
  | sendDone hget =>
      exact Or.inl ⟨id, fun f =>
        (holding f).total_of_completed hget rfl rfl rfl rfl rfl⟩
  | fail hget hnone =>
      exact Or.inl ⟨id, fun f =>
        (holding f).total_of_completed hget rfl rfl rfl rfl rfl⟩

/-! ## Soundness is preserved -/

theorem OperationSound.congr {heap heap' : Pointer → CustomOverlapped}
    {op : Operation} (h : OperationSound c heap op)
    (heq : heap' op.overlapped = heap op.overlapped) :
    OperationSound c heap' op where
  slot := h.slot
  operationType := by rw [heq]; exact h.operationType
  accepted := by rw [heq]; exact h.accepted

/-- A thread holds the object outside of any operation. -/
def Held (p : Pointer) (s : State n) : Prop :=
  (∃ slot clients, s.main = .popped slot clients p) ∨
    ∃ w, s.workers w = .recycling p ∨
      ∃ overlapped slot call, s.workers w = .popped overlapped slot call p

theorem Sound.ne_of_held (hs : Sound c s) {p : Pointer} (hheld : Held p s)
    {op : Operation} (hop : InUse s.posted s.workers op) :
    op.overlapped ≠ p := by
  let μ := holding fun o => if o = p then 1 else 0
  have htotal : μ.total s ≤ 1 := hs.places_le p
  have hself : (if p = p then 1 else 0) = 1 := if_pos rfl
  intro heq
  have hoperation : μ.ofOperation op = 1 := if_pos heq
  have hdispatching (b : ℕ) : μ.ofWorker (.dispatching op b) = 1 := if_pos heq
  rcases hheld with ⟨slot, clients, hmain⟩ | ⟨w, hw⟩
  · have hone : 1 ≤ μ.ofMain s.main := by
      rw [hmain]
      exact hself.ge
    obtain ⟨hposted, hworkers⟩ := Weight.main_alone htotal hone
    rcases hop with hmem | ⟨v, b, hv⟩
    · have hzero := hposted op hmem
      omega
    · have hzero := hworkers v
      rw [hv, hdispatching] at hzero
      cases hzero
  · have hone : 1 ≤ μ.ofWorker (s.workers w) := by
      rcases hw with hw | ⟨overlapped, slot, call, hw⟩
      · rw [hw]
        exact hself.ge
      · rw [hw]
        exact le_add_left hself.ge
    obtain ⟨hposted, -, hworkers⟩ := Weight.worker_alone htotal hone
    rcases hop with hmem | ⟨v, b, hv⟩
    · have hzero := hposted op hmem
      omega
    · have hvw : v ≠ w := by
        rintro rfl
        rcases hw with hw | ⟨overlapped, slot, call, hw⟩ <;>
          · rw [hv] at hw
            cases hw
      have hzero := hworkers v hvw
      rw [hv, hdispatching] at hzero
      cases hzero

/-- The object of a posted operation belongs to no other operation. -/
theorem Sound.ne_of_posted (hs : Sound c s) {k : ℕ} {op : Operation}
    (hget : s.posted[k]? = some op) {op' : Operation}
    (hop' : InUse (s.posted.eraseIdx k) s.workers op') :
    op'.overlapped ≠ op.overlapped := by
  let μ := holding fun p => if p = op.overlapped then 1 else 0
  have htotal : μ.total s ≤ 1 := hs.places_le op.overlapped
  have hone : 1 ≤ μ.ofOperation op := (if_pos rfl).ge
  obtain ⟨hposted, -, hworkers⟩ := Weight.operation_alone htotal hget hone
  intro heq
  rcases hop' with hmem | ⟨v, b, hv⟩
  · have hzero : μ.ofOperation op' = 0 := hposted op' hmem
    have hoperation : μ.ofOperation op' = 1 := if_pos heq
    omega
  · have hzero := hworkers v
    rw [hv] at hzero
    have hdispatching : μ.ofWorker (.dispatching op' b) = 1 := if_pos heq
    omega

section InUse

variable {posted : List Operation} {workers : Fin n → Worker}
  {op op' : Operation} {k : ℕ}

theorem InUse.of_update {w : Fin n} {next : Worker}
    (h : InUse posted (Function.update workers w next) op)
    (hnext : ∀ op b, next ≠ .dispatching op b) :
    InUse posted workers op := by
  rcases h with hmem | ⟨v, b, hv⟩
  · exact Or.inl hmem
  · by_cases hvw : v = w
    · subst hvw
      rw [Function.update_self] at hv
      exact absurd hv (hnext op b)
    · rw [Function.update_of_ne hvw] at hv
      exact Or.inr ⟨v, b, hv⟩

theorem InUse.of_cons (h : InUse (op' :: posted) workers op) :
    op = op' ∨ InUse posted workers op := by
  rcases h with hmem | hworker
  · rcases List.mem_cons.mp hmem with heq | hmem
    · exact Or.inl heq
    · exact Or.inr (Or.inl hmem)
  · exact Or.inr (Or.inr hworker)

theorem InUse.of_eraseIdx (h : InUse (posted.eraseIdx k) workers op) :
    InUse posted workers op :=
  h.imp_left List.mem_of_mem_eraseIdx

theorem InUse.of_set {op₀ : Operation} (hget : posted[k]? = some op₀)
    (h : InUse (posted.set k op') workers op) :
    op = op' ∨ InUse (posted.eraseIdx k) workers op := by
  rcases h with hmem | hworker
  · have hmem' := (set_perm_cons_eraseIdx op' hget).mem_iff.mp hmem
    exact InUse.of_cons (Or.inl hmem')
  · exact Or.inr (Or.inr hworker)

theorem inUse_of_getElem? (hget : posted[k]? = some op) :
    InUse posted workers op :=
  Or.inl (List.mem_of_getElem? hget)

end InUse

theorem Session.dispatched_ne_dispatching (o : CustomOverlapped)
    (op : Operation) (bytesTransferred : ℕ) (op' : Operation) (b : ℕ) :
    Session.dispatched o op bytesTransferred ≠ .dispatching op' b := by
  rw [Session.dispatched]
  split
  · simp
  · split <;> simp
  · simp

theorem Call.after_ne_dispatching (overlapped : Pointer) (slot : ℕ)
    (call : Call) (op : Operation) (b : ℕ) :
    call.after overlapped slot ≠ .dispatching op b := by
  cases call <;> rintro ⟨⟩

theorem Config.IsSlot.lt {slot : ℕ} (h : c.IsSlot slot) : slot < 2 ^ 32 :=
  lt_of_le_of_lt h.2 (c.socketMax_lt.trans (by decide))

/-- An accept finds the client that posted it. -/
theorem operationSound_acceptReady {heap : Pointer → CustomOverlapped}
    {p : Pointer} {slot : ℕ} (hslot : c.IsSlot slot) (o : CustomOverlapped)
    (hheap : heap p = Client.acceptReady slot o) :
    OperationSound c heap ⟨p, .acceptEx, slot, none⟩ where
  slot := hslot
  operationType := by
    rw [hheap]
    rfl
  accepted := fun _ => by
    rw [hheap]
    exact Session.acceptedSlot_acceptReady hslot.lt o

theorem Call.operationType_prepare (call : Call) (o : CustomOverlapped) :
    (call.prepare o).mOperationType = call.socketCall.operationType := by
  cases call with
  | receiveReady => rfl
  | send socketId contentsType bodyBuffer =>
      rw [prepare, NetworkManager.send, Client.send, CustomOverlapped.setBody]
      split <;> rfl

theorem operationSound_prepare {heap : Pointer → CustomOverlapped}
    {p : Pointer} {slot : ℕ} {call : Call} (hslot : c.IsSlot (call.target slot))
    (o : CustomOverlapped) (hheap : heap p = call.prepare o) :
    OperationSound c heap ⟨p, call.socketCall, call.target slot, none⟩ where
  slot := hslot
  operationType := by
    rw [hheap]
    exact call.operationType_prepare o
  accepted := fun haccept => by cases call <;> cases haccept

/-- Where an operation that is in use after a step comes from, and what became
of its object. -/
inductive Origin (s : State n) (e : Event α n) (s' : State n)
    (op : Operation) : Prop
  | kept :
      InUse s.posted s.workers op →
        s'.heap op.overlapped = s.heap op.overlapped →
        (∀ k data, e = .complete k data →
          InUse (s.posted.eraseIdx k) s.workers op) →
        Origin s e s' op
  | accepting {slot : ℕ} {clients : List ℕ} {p : Pointer} :
      s.main = .popped slot clients p → op = ⟨p, .acceptEx, slot, none⟩ →
        s'.heap p = Client.acceptReady slot (s.heap p) →
        s'.log = .accepting slot :: s.log → Origin s e s' op
  | posted {w : Fin n} {overlapped : Pointer} {slot : ℕ} {call : Call}
      {p : Pointer} :
      s.workers w = .popped overlapped slot call p →
        op = ⟨p, call.socketCall, call.target slot, none⟩ →
        s'.heap p = call.prepare (s.heap p) →
        s'.log =
          call.entry slot s.connection (call.prepare (s.heap p)) :: s.log →
        Origin s e s' op
  | accepted {p : Pointer} {slot : ℕ} {data : List UInt8} :
      InUse s.posted s.workers ⟨p, .acceptEx, slot, none⟩ →
        op = ⟨p, .acceptEx, slot, some (.done 0)⟩ →
        s'.heap p = (s.heap p).acceptAddresses data →
        s'.connection slot = .live → s'.log = s.log → Origin s e s' op
  | received {p : Pointer} {slot k : ℕ} {data : List UInt8} :
      e = .complete k data →
        InUse s.posted s.workers ⟨p, .wsaRecv, slot, none⟩ →
        op = ⟨p, .wsaRecv, slot, some (.done data.length)⟩ →
        s'.heap p = (s.heap p).receive data →
        s'.log = .arrived slot data :: s.log → Origin s e s' op
  | finished {op₀ : Operation} {completion : Option Completion} :
      InUse s.posted s.workers op₀ →
        op = { op₀ with completion := completion } →
        (op₀.call = .wsaSend ∧ ∃ b, completion = some (.done b)) ∨
          (completion = some .failed ∧ op₀.completion = none ∧
            ∃ k, e = .fail k ∧ s.posted[k]? = some op₀) →
        s'.heap = s.heap → s'.log = s.log → Origin s e s' op

theorem Sound.origin (hs : Sound c s) (h : Step c handler s e s')
    {op : Operation} (hop : InUse s'.posted s'.workers op) :
    Origin s e s' op := by
  cases h with
  | acceptEnd | acceptSkip | acceptNull | acceptPop | install | aborted
  | popNull => exact .kept hop rfl (by simp)
  | acceptPost hmain =>
      rcases hop.of_cons with rfl | hop
      · exact .accepting hmain rfl (Function.update_self _ _ _) rfl
      · exact .kept hop (Function.update_of_ne
          (hs.ne_of_held (Or.inl ⟨_, _, hmain⟩) hop) _ _) (by simp)
  | acceptRefused hmain =>
      exact .kept hop (Function.update_of_ne
        (hs.ne_of_held (Or.inl ⟨_, _, hmain⟩) hop) _ _) (by simp)
  | spawn hk hmain => exact .kept (hop.of_update (by simp)) rfl (by simp)
  | dequeueFailed hwaiting hget hfailed =>
      exact .kept hop.of_eraseIdx rfl (by simp)
  | @dequeueDone w k b op₀ hwaiting hget hdone =>
      rcases hop with hmem | ⟨v, b', hv⟩
      · exact .kept (Or.inl (List.mem_of_mem_eraseIdx hmem)) rfl (by simp)
      · simp only [State.setWorker] at hv
        by_cases hvw : v = w
        · subst hvw
          rw [Function.update_self] at hv
          cases hv
          exact .kept (inUse_of_getElem? hget) rfl (by simp)
        · rw [Function.update_of_ne hvw] at hv
          exact .kept (Or.inr ⟨v, b', hv⟩) rfl (by simp)
  | @dispatch w _ _ op₀ b hdispatching =>
      have hsound := hs.operations op₀ (Or.inr ⟨w, b, hdispatching⟩)
      rw [hsound.dispatch_eq] at hop
      exact .kept (hop.of_update (Session.dispatched_ne_dispatching _ _ _))
        rfl (by simp)
  | handled | pop => exact .kept (hop.of_update (by simp)) rfl (by simp)
  | returnEarly hcalling hearly =>
      exact .kept (hop.of_update (Call.after_ne_dispatching _ _ _)) rfl
        (by simp)
  | @post w _ overlapped slot call p hpopped =>
      rcases hop.of_cons with rfl | hop
      · exact .posted hpopped rfl (Function.update_self _ _ _) rfl
      · have hop' := hop.of_update (Call.after_ne_dispatching _ _ _)
        exact .kept hop' (Function.update_of_ne (hs.ne_of_held
          (Or.inr ⟨w, Or.inr ⟨_, _, _, hpopped⟩⟩) hop') _ _) (by simp)
  | @refused w _ overlapped slot call p hpopped =>
      have hop' := hop.of_update (Call.after_ne_dispatching _ _ _)
      exact .kept hop' (Function.update_of_ne (hs.ne_of_held
        (Or.inr ⟨w, Or.inr ⟨_, _, _, hpopped⟩⟩) hop') _ _) (by simp)
  | @recycle w _ _ overlapped hrecycling =>
      have hop' := hop.of_update (by simp)
      exact .kept hop' (Function.update_of_ne
        (hs.ne_of_held (Or.inr ⟨w, Or.inl hrecycling⟩) hop') _ _) (by simp)
  | acceptDone hget hclosed =>
      rcases hop.of_set hget with rfl | hop
      · exact .accepted (inUse_of_getElem? hget) rfl
          (Function.update_self _ _ _) (Function.update_self _ _ _) rfl
      · refine .kept hop.of_eraseIdx
          (Function.update_of_ne (hs.ne_of_posted hget hop) _ _) ?_
        rintro _ _ ⟨⟩
        exact hop
  | recvDone hget hfits hlive =>
      rcases hop.of_set hget with rfl | hop
      · exact .received rfl (inUse_of_getElem? hget) rfl
          (Function.update_self _ _ _) rfl
      · refine .kept hop.of_eraseIdx
          (Function.update_of_ne (hs.ne_of_posted hget hop) _ _) ?_
        rintro _ _ ⟨⟩
        exact hop
  | sendDone hget =>
      rcases hop.of_set hget with rfl | hop
      · exact .finished (inUse_of_getElem? hget) rfl (Or.inl ⟨rfl, _, rfl⟩)
          rfl rfl
      · refine .kept hop.of_eraseIdx rfl ?_
        rintro _ _ ⟨⟩
        exact hop
  | fail hget hnone =>
      rcases hop.of_set hget with rfl | hop
      · exact .finished (inUse_of_getElem? hget) rfl
          (Or.inr ⟨rfl, hnone, _, rfl, hget⟩) rfl rfl
      · exact .kept hop.of_eraseIdx rfl (by simp)

theorem Sound.operations_step (hs : Sound c s)
    (h : Step c handler s e s') (op : Operation)
    (hop : InUse s'.posted s'.workers op) :
    OperationSound c s'.heap op := by
  cases hs.origin h hop with
  | kept hop hheap => exact (hs.operations op hop).congr hheap
  | accepting hmain hop hheap =>
      subst hop
      have hslot := hs.main
      rw [hmain] at hslot
      exact operationSound_acceptReady hslot.1 _ hheap
  | @posted w _ _ _ _ hpopped hop hheap =>
      subst hop
      have hslot := hs.workers w
      rw [hpopped] at hslot
      exact operationSound_prepare hslot.2 _ hheap
  | accepted hold hop hheap =>
      subst hop
      have hsound := hs.operations _ hold
      exact ⟨hsound.slot, (congrArg _ hheap).trans hsound.operationType,
        fun haccept => (congrArg _ hheap).trans (hsound.accepted haccept)⟩
  | received he hold hop hheap =>
      subst hop
      have hsound := hs.operations _ hold
      exact ⟨hsound.slot, (congrArg _ hheap).trans hsound.operationType,
        (by simp)⟩
  | finished hold hop hfinished hheap =>
      subst hop
      rw [hheap]
      have hsound := hs.operations _ hold
      exact ⟨hsound.slot, hsound.operationType, hsound.accepted⟩

theorem Sound.queueSize_step (hs : Sound c s) (h : Step c handler s e s') :
    s'.mOverlappedQueue.mQueueMaxSize = c.poolSize := by
  cases h with
  | acceptPop | pop =>
      exact (LockFreeCircleQueue.mQueueMaxSize_pop _).trans hs.queueSize
  | recycle =>
      exact (LockFreeCircleQueue.mQueueMaxSize_push _ _).trans hs.queueSize
  | _ => exact hs.queueSize

theorem Sound.noNull_step (hs : Sound c s) (h : Step c handler s e s') :
    none ∉ s'.mOverlappedQueue.contents := by
  have hnull := hs.noNull
  cases h with
  | acceptPop hmain hpop =>
      rw [contents_of_pop_eq_some hpop] at hnull
      exact fun hmem => hnull (List.mem_cons_of_mem _ hmem)
  | pop hcalling hearly hpop =>
      rw [contents_of_pop_eq_some hpop] at hnull
      exact fun hmem => hnull (List.mem_cons_of_mem _ hmem)
  | @recycle w _ _ overlapped hrecycling =>
      have hpush := (LockFreeCircleQueue.push_of_room _ (some overlapped)
        (hs.room hrecycling)).2
      change none ∉ (s.mOverlappedQueue.push (some overlapped)).1.contents
      rw [hpush, List.mem_append]
      simpa using hnull
  | _ => exact hnull

theorem workerSound_after {slot : ℕ} (hslot : c.IsSlot slot)
    (overlapped : Pointer) (call : Call) :
    WorkerSound c (call.after overlapped slot) := by
  cases call with
  | receiveReady => trivial
  | send => exact hslot

theorem workerSound_dispatched {op : Operation} (hslot : c.IsSlot op.slot)
    (o : CustomOverlapped) (bytesTransferred : ℕ) :
    WorkerSound c (Session.dispatched o op bytesTransferred) := by
  rw [Session.dispatched]
  split
  · exact hslot
  · split <;> exact hslot
  · trivial

theorem isSlot_target {slot : ℕ} (hslot : c.IsSlot slot) {ok : Bool}
    {call : Call} (hearly : ¬ call.ReturnsEarly c ok) :
    c.IsSlot (call.target slot) := by
  cases call with
  | receiveReady => exact hslot
  | send => exact not_not.mp hearly

theorem Sound.workers_step (hs : Sound c s) (h : Step c handler s e s') :
    ∀ w, WorkerSound c (s'.workers w) := by
  have hsound (w : Fin n) := hs.workers w
  have hupdate {w : Fin n} {next : Worker} (hnext : WorkerSound c next) :
      ∀ v, WorkerSound c (Function.update s.workers w next v) :=
    (Function.forall_update_iff s.workers fun _ => WorkerSound c).mpr
      ⟨hnext, fun v _ => hs.workers v⟩
  cases h with
  | spawn | recycle => exact hupdate trivial
  | dequeueDone hwaiting hget hdone => exact hupdate hdone
  | @dispatch w _ _ op b hdispatching =>
      have hop := hs.operations op (Or.inr ⟨w, b, hdispatching⟩)
      rw [hop.dispatch_eq]
      exact hupdate
        (workerSound_dispatched hop.slot _ _)
  | @handled w _ _ _ _ _ _ hhandling _ =>
      have hw := hsound w
      rw [hhandling] at hw
      exact hupdate hw
  | @returnEarly w _ _ _ _ _ hcalling _ =>
      have hw := hsound w
      rw [hcalling] at hw
      exact hupdate (workerSound_after hw _ _)
  | @pop w _ _ _ _ _ _ hcalling hearly _ =>
      have hw := hsound w
      rw [hcalling] at hw
      exact hupdate ⟨hw, isSlot_target hw hearly⟩
  | @post w _ _ _ _ _ hpopped =>
      have hw := hsound w
      rw [hpopped] at hw
      exact hupdate (workerSound_after hw.1 _ _)
  | @refused w _ _ _ _ _ hpopped =>
      have hw := hsound w
      rw [hpopped] at hw
      exact hupdate (workerSound_after hw.1 _ _)
  | _ => exact hs.workers

theorem Sound.main_step (hs : Sound c s) (h : Step c handler s e s') :
    MainSound c s'.main := by
  have hsound := hs.main
  cases h with
  | acceptEnd | spawn | install => trivial
  | acceptSkip hmain =>
      rw [hmain] at hsound
      exact fun slot hslot => hsound slot (List.mem_cons_of_mem _ hslot)
  | acceptPop hmain =>
      rw [hmain] at hsound
      exact List.forall_mem_cons.mp hsound
  | acceptPost hmain =>
      rw [hmain] at hsound
      exact hsound.2
  | acceptRefused hmain =>
      rw [hmain] at hsound
      exact hsound.2
  | _ => exact hsound

/-- A worker that moves was started before. -/
theorem unstarted_update {main : Main} {workers : Fin n → Worker} {w : Fin n}
    {next : Worker}
    (hunstarted : ∀ w : Fin n, main.Precedes w → workers w = .unstarted)
    (hstarted : workers w ≠ .unstarted) (v : Fin n) (hv : main.Precedes v) :
    Function.update workers w next v = .unstarted := by
  have hvw : v ≠ w := by
    rintro rfl
    exact hstarted (hunstarted v hv)
  rw [Function.update_of_ne hvw]
  exact hunstarted v hv

theorem Sound.unstarted_step (hs : Sound c s) (h : Step c handler s e s') :
    ∀ w : Fin n, s'.main.Precedes w → s'.workers w = .unstarted := by
  have hunstarted := hs.unstarted
  have hmoves {w : Fin n} {current : Worker} (next : Worker)
      (hcurrent : s.workers w = current) (hne : current ≠ .unstarted)
      (v : Fin n) (hv : s.main.Precedes v) :
      Function.update s.workers w next v = .unstarted :=
    unstarted_update hunstarted (hcurrent ▸ hne) v hv
  cases h with
  | acceptEnd hmain | acceptSkip hmain | acceptPop hmain | acceptPost hmain
  | acceptRefused hmain =>
      exact fun w _ => hunstarted w (by rw [hmain]; trivial)
  | @spawn _ k hk hmain =>
      intro v hv
      have hvk : k + 1 ≤ v := hv
      have hne : v ≠ ⟨k, hk⟩ := fun heq => by
        rw [heq] at hvk
        exact absurd hvk (by simp)
      rw [hmain] at hunstarted
      exact (Function.update_of_ne hne _ _).trans
        (hunstarted v (Nat.le_of_succ_le hvk))
  | install hmain => exact fun w hw => hw.elim
  | dequeueDone hwaiting => exact hmoves _ hwaiting (by simp)
  | dispatch hdispatching => exact hmoves _ hdispatching (by simp)
  | handled hhandling => exact hmoves _ hhandling (by simp)
  | returnEarly hcalling => exact hmoves _ hcalling (by simp)
  | pop hcalling => exact hmoves _ hcalling (by simp)
  | post hpopped => exact hmoves _ hpopped (by simp)
  | refused hpopped => exact hmoves _ hpopped (by simp)
  | recycle hrecycling => exact hmoves _ hrecycling (by simp)
  | _ => exact hunstarted

theorem holding_total_le (hs : Sound c s) (h : Step c handler s e s')
    (f : Pointer → ℕ) : (holding f).total s' ≤ (holding f).total s := by
  rcases holding_step hs h with ⟨-, hkeeps⟩ | ⟨-, o, hdrops⟩
  · exact (hkeeps f).le
  · exact Nat.le.intro (hdrops f)

theorem Sound.step (hs : Sound c s) (h : Step c handler s e s') :
    Sound c s' where
  queueSize := hs.queueSize_step h
  noNull := hs.noNull_step h
  objects_lt := (holding_total_le hs h _).trans_lt hs.objects_lt
  places_le := fun o => (holding_total_le hs h _).trans (hs.places_le o)
  operations := hs.operations_step h
  workers := hs.workers_step h
  main := hs.main_step h
  unstarted := hs.unstarted_step h

/-! ## Runs from the end of `NetworkManager::Initialize` -/

variable {hg bg : Pointer → List UInt8}

theorem holding_initialized (f : Pointer → ℕ) :
    (holding f).total (initialized n c hg bg) =
      ((List.range (c.poolSize - 1)).map f).sum := by
  have hqueue : (holding f).ofQueue (initialized n c hg bg).mOverlappedQueue =
      ((List.range (c.poolSize - 1)).map f).sum := by
    rw [Weight.ofQueue, initialized, contents_overlappedQueue, List.map_map]
    rfl
  have hworkers : (holding f).ofWorkers (initialized n c hg bg).workers = 0 :=
    Finset.sum_eq_zero fun _ _ => rfl
  rw [Weight.total, hqueue, hworkers]
  rfl

theorem places_initialized (o : Pointer) :
    places o (initialized n c hg bg) =
      (List.range (c.poolSize - 1)).count o := by
  rw [places, holding_initialized]
  exact sum_indicator _ o

theorem sound_initialized (n : ℕ) (c : Config)
    (hg bg : Pointer → List UInt8) :
    Sound c (initialized n c hg bg) where
  queueSize := mQueueMaxSize_overlappedQueue _ _
  noNull := by simp [initialized]
  objects_lt := by
    rw [objects, holding_initialized]
    have hpos := c.poolSize_pos
    simp
    omega
  places_le := fun o => by
    rw [places_initialized]
    exact List.nodup_iff_count_le_one.mp List.nodup_range o
  operations := fun op hop => by
    rcases hop with hmem | ⟨w, b, hw⟩
    · cases hmem
    · cases hw
  workers := fun w => trivial
  main := fun slot hslot => by
    rw [List.mem_range'_1] at hslot
    exact ⟨hslot.1, by omega⟩
  unstarted := fun w _ => rfl

/-- Each object that was in the queue when the server started is in exactly one
place. -/
def Conserved (c : Config) (s : State n) : Prop :=
  ∀ o, some o ∈ (overlappedQueue c.poolSize c.poolSize_pos).contents →
    places o s = 1

theorem mem_initial_iff {o : Pointer} :
    some o ∈ (overlappedQueue c.poolSize c.poolSize_pos).contents ↔
      o < c.poolSize - 1 := by
  simp

/-- Objects from outside the pool appear nowhere. -/
def NoneForeign (c : Config) (s : State n) : Prop :=
  (holding fun o => if o < c.poolSize - 1 then 0 else 1).total s = 0

theorem conserved_step_iff (hs : Sound c s) (hforeign : NoneForeign c s)
    (hconserved : Conserved c s) (h : Step c handler s e s') :
    Conserved c s' ↔ ¬ Drops s e := by
  rcases holding_step hs h with ⟨hnot, hkeeps⟩ | ⟨hdrops, o, hlost⟩
  · refine ⟨fun _ => hnot, fun _ o ho => ?_⟩
    exact (hkeeps _).trans (hconserved o ho)
  · refine ⟨fun hconserved' => ?_, fun hnot => absurd hdrops hnot⟩
    have hin : o < c.poolSize - 1 := by
      by_contra hout
      have hlost' := hlost fun o => if o < c.poolSize - 1 then 0 else 1
      rw [if_neg hout, hforeign] at hlost'
      omega
    have hbefore := hconserved o (mem_initial_iff.mpr hin)
    have hafter := hconserved' o (mem_initial_iff.mpr hin)
    have hlost' := hlost fun p => if p = o then 1 else 0
    rw [if_pos rfl] at hlost'
    rw [places] at hbefore hafter
    omega

/-- The objects of the pool are conserved along a run exactly when no worker
dequeues a failed completion and no call to the system fails at once. -/
theorem conserved_iff_nothing_dropped (handler : Handler α) (n : ℕ)
    (c : Config) (hg bg : Pointer → List UInt8) (es : List (Event α n)) :
    Throughout (State.step c handler) (Conserved c)
        (initialized n c hg bg) es ↔
      Every (State.step c handler) (fun s e => ¬ Drops s e)
        (initialized n c hg bg) es := by
  have hinv (s : State n) (e : Event α n) (s' : State n)
      (hs : Sound c s ∧ NoneForeign c s)
      (hstep : State.step c handler s e = some s') :
      Sound c s' ∧ NoneForeign c s' := by
    have h := (State.step_cases hstep).2
    refine ⟨hs.1.step h, ?_⟩
    exact Nat.eq_zero_of_le_zero ((holding_total_le hs.1 h _).trans hs.2.le)
  have hiff (s : State n) (e : Event α n) (s' : State n)
      (hs : Sound c s ∧ NoneForeign c s) (hconserved : Conserved c s)
      (hstep : State.step c handler s e = some s') :
      Conserved c s' ↔ ¬ Drops s e :=
    conserved_step_iff hs.1 hs.2 hconserved (State.step_cases hstep).2
  have hforeign : NoneForeign c (initialized n c hg bg) := by
    rw [NoneForeign, holding_initialized, List.sum_eq_zero_iff]
    intro x hx
    obtain ⟨o, ho, rfl⟩ := List.mem_map.mp hx
    exact if_pos (List.mem_range.mp ho)
  have hconserved : Conserved c (initialized n c hg bg) := by
    intro o ho
    rw [places_initialized]
    exact List.count_eq_one_of_mem List.nodup_range
      (List.mem_range.mpr (mem_initial_iff.mp ho))
  exact throughout_iff_every hinv hiff ⟨sound_initialized n c hg bg, hforeign⟩
    hconserved es

/-- The main thread of the server that `main` starts, up to the point where the
send callback is stored, with two workers. -/
def startUp (α : Type) : List (Event α 2) := List.replicate 24 (.main true)

/-- A client connects to the first slot, and worker `w` posts a receive for
it. -/
def firstConnection {α : Type} (w : Fin 2) (answer : α) : List (Event α 2) :=
  startUp α ++
    [.complete 9 [], .dequeue w 9, .work w true answer, .work w true answer,
      .work w true answer, .work w true answer]

/-- The connection is reset, and the worker dequeues the failed completion. -/
def connectionReset {α : Type} (w : Fin 2) (answer : α) : List (Event α 2) :=
  firstConnection w answer ++ [.fail 0, .dequeue w 0]

set_option maxRecDepth 100000 in
theorem places_connectionReset {α : Type} (handler : Handler α) (answer : α) :
    (run (State.step mainConfig handler)
        (initialized 2 mainConfig (fun _ => []) fun _ => [])
        (connectionReset 0 answer)).map (places 10) = some 0 := by
  rfl

/-- A connection that is reset costs the pool an object, whatever the receive
callback does. -/
theorem not_conserved_of_connectionReset :
    ¬ ∃ (α : Type) (_ : Nonempty α) (handler : Handler α),
      ∀ es : List (Event α 2),
        Throughout (State.step mainConfig handler) (Conserved mainConfig)
          (initialized 2 mainConfig (fun _ => []) fun _ => []) es := by
  rintro ⟨α, ⟨answer⟩, handler, hall⟩
  obtain ⟨s, hrun, hplaces⟩ :=
    Option.map_eq_some_iff.mp (places_connectionReset handler answer)
  have hconserved := (hall (connectionReset 0 answer)).last hrun
  have hten : places 10 s = 1 := hconserved 10 (mem_initial_iff.mpr (by decide))
  omega

end RankingServer.Network
