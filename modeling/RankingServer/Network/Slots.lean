import RankingServer.Network.Buffers

/-!
# The slots

A slot's turn to post the next accept or receive travels from the main thread to
the system, from there to the worker that dequeues the completion, and with
`ReceiveReady` back to the system.  It is never doubled.  It is lost, and the
slot with it, whenever a connection ends or a socket call fails: no part of the
server makes a slot ready to accept again.
-/

namespace RankingServer.Network

open Transition Utility

variable {α : Type*} {n : ℕ} {c : Config} {handler : Handler α}
  {s s' : State n} {e : Event α n} {slot : ℕ}

/-- The turn of a slot: an outstanding accept or receive on it, a worker between
dequeuing the completion of one and its call of `ReceiveReady`, or the main
thread that has still to make it ready for the first time. -/
def turn (slot : ℕ) : Weight where
  inQueue _ := 0
  ofOperation op := if op.call ≠ .wsaSend ∧ op.slot = slot then 1 else 0
  ofMain
    | .accepting clients => clients.count slot
    | .popped client clients _ => (client :: clients).count slot
    | .spawning _ | .working => 0
  ofWorker
    | .dispatching op _ => if op.call ≠ .wsaSend ∧ op.slot = slot then 1 else 0
    | .handling _ client _ | .calling _ client _ | .popped _ client _ _ =>
        if client = slot then 1 else 0
    | .unstarted | .waiting | .recycling _ => 0

def tokens (slot : ℕ) (s : State n) : ℕ := (turn slot).total s

/-- The worker is between dequeuing a completion of the slot and the end of its
call of `ReceiveReady`. -/
def Worker.Serves (slot : ℕ) : Worker → Prop
  | .dispatching op _ => op.call ≠ .wsaSend ∧ op.slot = slot
  | .handling _ client _ | .calling _ client _ | .popped _ client _ _ =>
      client = slot
  | .unstarted | .waiting | .recycling _ => False

/-- The main thread has still to post the first accept on the slot. -/
def Main.Owes (slot : ℕ) : Main → Prop
  | .accepting clients => slot ∈ clients
  | .popped client clients _ => slot ∈ client :: clients
  | .spawning _ | .working => False

theorem turn_ofOperation_pos_iff {op : Operation} :
    0 < (turn slot).ofOperation op ↔ op.call ≠ .wsaSend ∧ op.slot = slot := by
  simp only [turn]
  split
  · next h => simp [h]
  · next h => simp [h]

theorem turn_ofWorker_pos_iff {worker : Worker} :
    0 < (turn slot).ofWorker worker ↔ worker.Serves slot := by
  cases worker with
  | dispatching op b => exact turn_ofOperation_pos_iff
  | handling _ client _ | calling _ client _ | popped _ client _ _ =>
      simp only [turn, Worker.Serves]
      split <;> simp_all
  | unstarted | waiting | recycling => simp [turn, Worker.Serves]

theorem turn_ofMain_pos_iff {main : Main} :
    0 < (turn slot).ofMain main ↔ main.Owes slot := by
  cases main with
  | accepting | popped => exact List.count_pos_iff
  | spawning | working => simp [turn, Main.Owes]

@[simp] theorem turn_ofQueue (q : LockFreeCircleQueue (Option Pointer)) :
    (turn slot).ofQueue q = 0 :=
  Weight.ofQueue_of_zero _ (fun _ => rfl) q

theorem turn_ofWorker_dispatched (o : CustomOverlapped) (op : Operation)
    (bytesTransferred : ℕ) :
    (turn slot).ofWorker (Session.dispatched o op bytesTransferred) =
      (turn slot).ofOperation op := by
  rw [Session.dispatched]
  split
  · next hcall => simp [turn, hcall]
  · next hcall => split <;> simp [turn, hcall]
  · next hcall => simp [turn, hcall]

/-- The main thread is at a socket call. -/
def Main.CallsSocket : Main → Prop
  | .accepting (_ :: _) | .popped _ _ _ => True
  | .accepting [] | .spawning _ | .working => False

instance : DecidablePred Main.CallsSocket
  | .accepting (_ :: _) | .popped _ _ _ => isTrue trivial
  | .accepting [] | .spawning _ | .working => isFalse id

/-- The worker is in `ReceiveReady`. -/
def Worker.InReceiveReady : Worker → Prop
  | .calling _ _ .receiveReady | .popped _ _ .receiveReady _ => True
  | _ => False

instance : DecidablePred Worker.InReceiveReady
  | .calling _ _ .receiveReady | .popped _ _ .receiveReady _ => isTrue trivial
  | .calling _ _ (.send _ _ _) | .popped _ _ (.send _ _ _) _ | .unstarted
  | .waiting | .dispatching _ _ | .handling _ _ _ | .recycling _ => isFalse id

/-- No connection ends with the event, and no socket call of `AcceptReady` or
`ReceiveReady` fails. -/
def Undisturbed (s : State n) : Event α n → Prop
  | .main ok => s.main.CallsSocket → ok = true
  | .dequeue _ k => ∀ op ∈ s.posted[k]?,
      op.completion = some .failed → op.call = .wsaSend
  | .work w ok _ => (s.workers w).InReceiveReady → ok = true
  | .complete k data => ∀ op ∈ s.posted[k]?, op.call = .wsaRecv → data ≠ []
  | .fail k => ∀ op ∈ s.posted[k]?, op.call = .wsaSend

instance (s : State n) : DecidablePred (Undisturbed (α := α) s)
  | .main _ => inferInstanceAs (Decidable (_ → _))
  | .dequeue _ k => inferInstanceAs
      (Decidable (∀ op ∈ s.posted[k]?, _ → _))
  | .work _ _ _ => inferInstanceAs (Decidable (_ → _))
  | .complete k _ => inferInstanceAs
      (Decidable (∀ op ∈ s.posted[k]?, _ → _))
  | .fail k => inferInstanceAs (Decidable (∀ op ∈ s.posted[k]?, _))

/-! ## What a step does to the turns -/

/-- The call passes the turn on to the receive it posts, or leaves it with the
worker. -/
theorem turn_post (slot : ℕ) (overlapped p : Pointer) (client : ℕ)
    (call : Call) :
    (turn slot).ofOperation
          ⟨p, call.socketCall, call.target client, none⟩ +
        (turn slot).ofWorker (call.after overlapped client) =
      if client = slot then 1 else 0 := by
  cases call with
  | receiveReady => simp [turn, Call.socketCall, Call.target, Call.after]
  | send => simp [turn, Call.socketCall, Call.after]

theorem turn_after_le (slot : ℕ) (overlapped : Pointer) (client : ℕ)
    (call : Call) :
    (turn slot).ofWorker (call.after overlapped client) ≤
      if client = slot then 1 else 0 := by
  cases call with
  | receiveReady => exact Nat.zero_le _
  | send => exact le_rfl

theorem turn_after_of_not_receiveReady (overlapped : Pointer) (client : ℕ)
    {call : Call} (hcall : call ≠ .receiveReady) :
    (turn slot).ofWorker (call.after overlapped client) =
      if client = slot then 1 else 0 := by
  cases call with
  | receiveReady => exact absurd rfl hcall
  | send => rfl

theorem tokens_step (hs : Sound c s) (h : Step c handler s e s') (slot : ℕ) :
    tokens slot s' ≤ tokens slot s ∧
      (Undisturbed s e → tokens slot s' = tokens slot s) := by
  have hkeep (heq : tokens slot s' = tokens slot s) :
      tokens slot s' ≤ tokens slot s ∧
        (Undisturbed s e → tokens slot s' = tokens slot s) :=
    ⟨heq.le, fun _ => heq⟩
  simp only [tokens] at hkeep ⊢
  cases h with
  | acceptEnd hmain =>
      apply hkeep
      simp only [Weight.total, hmain]
      rfl
  | acceptSkip hmain =>
      refine ⟨?_, fun hcalm => ?_⟩
      · simp only [Weight.total, hmain]
        simp only [turn, List.count_cons]
        omega
      · have hok := hcalm (by rw [hmain]; trivial)
        cases hok
  | acceptNull hmain hpop => exact hkeep rfl
  | acceptPop hmain hpop =>
      apply hkeep
      simp only [Weight.total, hmain, turn_ofQueue]
      rfl
  | acceptPost hmain =>
      apply hkeep
      simp only [Weight.total, State.post, State.setObject, hmain,
        Weight.ofPosted_cons]
      simp only [turn, List.count_cons, beq_iff_eq]
      simp
      omega
  | acceptRefused hmain =>
      refine ⟨?_, fun hcalm => ?_⟩
      · simp only [Weight.total, State.setObject, hmain]
        simp only [turn, List.count_cons]
        omega
      · have hok := hcalm (by rw [hmain]; trivial)
        cases hok
  | @spawn _ k hk hmain =>
      apply hkeep
      have hunstarted := hs.unstarted ⟨k, hk⟩ (by simp [Main.Precedes, hmain])
      have hworker := (turn slot).ofWorkers_update s.workers ⟨k, hk⟩ .waiting
      rw [hunstarted] at hworker
      simp only [Weight.total, State.setWorker, hmain]
      simp only [turn] at hworker ⊢
      omega
  | install hmain hk =>
      apply hkeep
      simp only [Weight.total, hmain]
      rfl
  | @dequeueFailed w k op hwaiting hget hfailed =>
      have herase := (turn slot).ofPosted_eraseIdx hget
      refine ⟨?_, fun hcalm => ?_⟩
      · simp only [Weight.total, ← herase]
        omega
      · have hsend := hcalm op hget hfailed
        have hzero : (turn slot).ofOperation op = 0 := by simp [turn, hsend]
        simp only [Weight.total, ← herase]
        omega
  | @dequeueDone w k bytesTransferred op hwaiting hget hdone =>
      apply hkeep
      have herase := (turn slot).ofPosted_eraseIdx hget
      have hworker := (turn slot).ofWorkers_update s.workers w
        (.dispatching op bytesTransferred)
      rw [hwaiting] at hworker
      simp only [Weight.total, State.setWorker, ← herase]
      simp only [turn] at hworker ⊢
      omega
  | @dispatch w _ _ op bytesTransferred hdispatching =>
      apply hkeep
      have hsound := hs.operations op (Or.inr ⟨w, _, hdispatching⟩)
      rw [hsound.dispatch_eq]
      have hworker := (turn slot).total_setWorker s w
        (Session.dispatched (s.heap op.overlapped) op bytesTransferred)
      rw [hdispatching, turn_ofWorker_dispatched] at hworker
      exact Nat.add_right_cancel hworker
  | @handled w _ _ overlapped client received call hhandling hreaction =>
      apply hkeep
      have hworker := (turn slot).total_setWorker s w
        (.calling overlapped client call)
      rw [hhandling] at hworker
      exact Nat.add_right_cancel hworker
  | aborted hhandling haborts => exact hkeep rfl
  | @returnEarly w ok answer overlapped client call hcalling hearly =>
      have hworker := (turn slot).total_setWorker s w
        (call.after overlapped client)
      rw [hcalling] at hworker
      change _ + (if client = slot then 1 else 0) = _ at hworker
      refine ⟨?_, fun hcalm => ?_⟩
      · have hafter := turn_after_le slot overlapped client call
        omega
      · have hcall : call ≠ .receiveReady := by
          rintro rfl
          have hok := hcalm (by rw [hcalling]; trivial)
          rw [hok] at hearly
          cases hearly
        rw [turn_after_of_not_receiveReady overlapped client hcall] at hworker
        omega
  | popNull hcalling hearly hpop => exact hkeep rfl
  | @pop w _ _ overlapped client call p hcalling hearly hpop =>
      apply hkeep
      have hworker := (turn slot).ofWorkers_update s.workers w
        (.popped overlapped client call p)
      rw [hcalling] at hworker
      simp only [Weight.total, State.setWorker, turn_ofQueue]
      simp only [turn] at hworker ⊢
      omega
  | @post w _ overlapped client call p hpopped =>
      apply hkeep
      have hworker := (turn slot).ofWorkers_update s.workers w
        (call.after overlapped client)
      have hpost := turn_post slot overlapped p client call
      rw [hpopped] at hworker
      change _ + (if client = slot then 1 else 0) = _ at hworker
      simp only [Weight.total, State.post, State.setWorker, State.setObject,
        Weight.ofPosted_cons]
      omega
  | @refused w _ overlapped client call p hpopped =>
      have hworker := (turn slot).ofWorkers_update s.workers w
        (call.after overlapped client)
      rw [hpopped] at hworker
      change _ + (if client = slot then 1 else 0) = _ at hworker
      refine ⟨?_, fun hcalm => ?_⟩
      · have hafter := turn_after_le slot overlapped client call
        simp only [Weight.total, State.setWorker, State.setObject]
        omega
      · have hcall : call ≠ .receiveReady := by
          rintro rfl
          have hok := hcalm (by rw [hpopped]; trivial)
          cases hok
        rw [turn_after_of_not_receiveReady overlapped client hcall] at hworker
        simp only [Weight.total, State.setWorker, State.setObject]
        omega
  | @recycle w _ _ overlapped hrecycling =>
      apply hkeep
      have hworker := (turn slot).ofWorkers_update s.workers w .waiting
      rw [hrecycling] at hworker
      simp only [Weight.total, State.setWorker, State.setObject, turn_ofQueue]
      simp only [turn] at hworker ⊢
      omega
  | acceptDone hget hclosed =>
      exact hkeep
        ((turn slot).total_of_completed hget rfl rfl rfl rfl rfl)
  | recvDone hget hfits hlive =>
      exact hkeep
        ((turn slot).total_of_completed hget rfl rfl rfl rfl rfl)
  | sendDone hget =>
      exact hkeep
        ((turn slot).total_of_completed hget rfl rfl rfl rfl rfl)
  | fail hget hnone =>
      exact hkeep
        ((turn slot).total_of_completed hget rfl rfl rfl rfl rfl)

theorem tokens_initialized (n : ℕ) (c : Config) (hg bg : Pointer → List UInt8)
    (slot : ℕ) :
    tokens slot (initialized n c hg bg) = if c.IsSlot slot then 1 else 0 := by
  have hworkers : (turn slot).ofWorkers (initialized n c hg bg).workers = 0 :=
    Finset.sum_eq_zero fun _ _ => rfl
  have hcount : (turn slot).ofMain (initialized n c hg bg).main =
      (List.range' 1 c.socketMax).count slot := rfl
  have hposted : (turn slot).ofPosted (initialized n c hg bg).posted = 0 := rfl
  rw [tokens, Weight.total, hworkers, turn_ofQueue, hcount, hposted,
    List.count_range_1']
  have hiff : 1 ≤ slot ∧ slot < 1 + c.socketMax ↔ c.IsSlot slot := by
    rw [Config.IsSlot]
    omega
  simp only [hiff]
  omega

/-- No slot ever has two turns. -/
theorem tokens_le_one {guard : State n → Event α n → Prop}
    (hs : Reachable (State.step c handler) (Started c) guard s) (slot : ℕ) :
    tokens slot s ≤ 1 := by
  induction hs with
  | start hstart =>
      obtain ⟨hg, bg, rfl⟩ := hstart
      rw [tokens_initialized]
      split <;> decide
  | next hreached hguard hstep ih =>
      have hsound := (sound_of_reachable hreached).1
      exact ((tokens_step hsound (State.step_cases hstep).2 slot).1).trans ih

/-- No slot loses its turn in an undisturbed run. -/
theorem tokens_eq_one
    (hs : Reachable (State.step c handler) (Started c) Undisturbed s)
    (hslot : c.IsSlot slot) : tokens slot s = 1 := by
  induction hs with
  | start hstart =>
      obtain ⟨hg, bg, rfl⟩ := hstart
      rw [tokens_initialized, if_pos hslot]
  | next hreached hcalm hstep ih =>
      have hsound := (sound_of_reachable hreached).1
      rw [(tokens_step hsound (State.step_cases hstep).2 slot).2 hcalm, ih]

/-! ## Whoever has the turn is alone with the slot -/

theorem alone_of_worker (htokens : tokens slot s ≤ 1) {w : Fin n}
    (hw : (s.workers w).Serves slot) :
    (∀ op ∈ s.posted, op.call ≠ .wsaSend → op.slot ≠ slot) ∧
      ¬ s.main.Owes slot ∧
        ∀ v, (s.workers v).Serves slot → v = w := by
  obtain ⟨hposted, hmain, hworkers⟩ := Weight.worker_alone htokens
    (turn_ofWorker_pos_iff.mpr hw)
  refine ⟨fun op hop hcall heq => ?_, fun howes => ?_, fun v hv => ?_⟩
  · exact (turn_ofOperation_pos_iff.mpr ⟨hcall, heq⟩).ne' (hposted op hop)
  · exact (turn_ofMain_pos_iff.mpr howes).ne' hmain
  · by_contra hvw
    exact (turn_ofWorker_pos_iff.mpr hv).ne' (hworkers v hvw)

theorem alone_of_main (htokens : tokens slot s ≤ 1)
    (hmain : s.main.Owes slot) :
    (∀ op ∈ s.posted, op.call ≠ .wsaSend → op.slot ≠ slot) ∧
      ∀ v, ¬ (s.workers v).Serves slot := by
  obtain ⟨hposted, hworkers⟩ := Weight.main_alone htokens
    (turn_ofMain_pos_iff.mpr hmain)
  refine ⟨fun op hop hcall heq => ?_, fun v hv => ?_⟩
  · exact (turn_ofOperation_pos_iff.mpr ⟨hcall, heq⟩).ne' (hposted op hop)
  · exact (turn_ofWorker_pos_iff.mpr hv).ne' (hworkers v)

theorem alone_of_posted (htokens : tokens slot s ≤ 1) {k : ℕ} {op : Operation}
    (hget : s.posted[k]? = some op) (hcall : op.call ≠ .wsaSend)
    (hslot : op.slot = slot) :
    (∀ op' ∈ s.posted.eraseIdx k, op'.call ≠ .wsaSend → op'.slot ≠ slot) ∧
      ¬ s.main.Owes slot ∧ ∀ v, ¬ (s.workers v).Serves slot := by
  obtain ⟨hposted, hmain, hworkers⟩ := Weight.operation_alone htokens hget
    (turn_ofOperation_pos_iff.mpr ⟨hcall, hslot⟩)
  refine ⟨fun op' hop' hcall' heq => ?_, fun howes => ?_, fun v hv => ?_⟩
  · exact (turn_ofOperation_pos_iff.mpr ⟨hcall', heq⟩).ne' (hposted op' hop')
  · exact (turn_ofMain_pos_iff.mpr howes).ne' hmain
  · exact (turn_ofWorker_pos_iff.mpr hv).ne' (hworkers v)

/-! ## No slot is lost -/

/-- The slot is waiting for a connection, has a live connection with a receive
outstanding, or is being worked on. -/
def Served (slot : ℕ) (s : State n) : Prop :=
  s.main.Owes slot ∨
    (∃ op ∈ s.posted, op.call = .acceptEx ∧ op.slot = slot) ∨
    (s.connection slot = .live ∧
      ∃ op ∈ s.posted, op.call = .wsaRecv ∧ op.slot = slot) ∨
    ∃ w, (s.workers w).Serves slot

/-- Every slot is served, and no receive was posted on a connection that had
ended. -/
structure NoSlotLost (c : Config) (s : State n) : Prop where
  served : ∀ slot, c.IsSlot slot → Served slot s
  live : ∀ slot, Entry.receiving slot .ended ∉ s.log

/-- The connections in every state of an undisturbed run. -/
structure Connected (s : State n) : Prop where
  notEnded : ∀ slot, s.connection slot ≠ .ended
  receiving : ∀ op, InUse s.posted s.workers op → op.call = .wsaRecv →
    s.connection op.slot = .live
  accepted : ∀ op b, InUse s.posted s.workers op → op.call = .acceptEx →
    op.completion = some (.done b) → s.connection op.slot = .live
  succeeded : ∀ op, InUse s.posted s.workers op → op.call ≠ .wsaSend →
    op.completion ≠ some .failed
  working : ∀ w slot, (s.workers w).Serves slot → s.connection slot = .live
  log : ∀ slot, Entry.receiving slot .ended ∉ s.log

/-- In an undisturbed step a connection changes only by being accepted. -/
theorem connection_step (hcalm : Undisturbed s e)
    (h : Step c handler s e s') (slot : ℕ) :
    s'.connection slot = s.connection slot ∨ s'.connection slot = .live := by
  cases h with
  | @acceptDone k data p client hget hclosed =>
      by_cases heq : slot = client
      · subst heq
        exact Or.inr (Function.update_self _ _ _)
      · exact Or.inl (Function.update_of_ne heq _ _)
  | recvDone hget hfits hlive =>
      have hdata := hcalm _ hget rfl
      exact Or.inl (congrFun (if_neg hdata) slot)
  | fail hget hnone =>
      have hsend := hcalm _ hget
      exact Or.inl (congrFun (if_pos hsend) slot)
  | _ => exact Or.inl rfl

theorem live_step (hcalm : Undisturbed s e) (h : Step c handler s e s')
    (hlive : s.connection slot = .live) : s'.connection slot = .live := by
  rcases connection_step hcalm h slot with heq | heq
  · exact heq.trans hlive
  · exact heq

theorem serves_of_dispatched {o : CustomOverlapped} {op : Operation} {b : ℕ}
    (h : (Session.dispatched o op b).Serves slot) :
    op.call ≠ .wsaSend ∧ op.slot = slot := by
  rw [Session.dispatched] at h
  split at h
  · next hcall => exact ⟨by simp [hcall], h⟩
  · next hcall =>
      refine ⟨by simp [hcall], ?_⟩
      split at h <;> exact h
  · exact h.elim

theorem eq_of_serves_after {overlapped : Pointer} {client : ℕ} {call : Call}
    (h : (call.after overlapped client).Serves slot) : client = slot := by
  cases call with
  | receiveReady => exact h.elim
  | send => exact h

theorem Connected.working_step (hc : Connected s) (hs : Sound c s)
    (hcalm : Undisturbed s e) (h : Step c handler s e s') :
    ∀ w slot, (s'.workers w).Serves slot → s'.connection slot = .live := by
  have hlive {slot : ℕ} (hl : s.connection slot = .live) :
      s'.connection slot = .live := live_step hcalm h hl
  have hupdate {w : Fin n} {next : Worker}
      (hnext : ∀ slot, next.Serves slot → s'.connection slot = .live) :
      ∀ v slot, (Function.update s.workers w next v).Serves slot →
        s'.connection slot = .live :=
    (Function.forall_update_iff s.workers fun _ worker =>
      ∀ slot, worker.Serves slot → s'.connection slot = .live).mpr
        ⟨hnext, fun v _ slot hv => hlive (hc.working v slot hv)⟩
  have hsame {w : Fin n} {current : Worker} (hw : s.workers w = current)
      {slot : ℕ} (hserves : current.Serves slot) :
      s'.connection slot = .live :=
    hlive (hc.working w slot (hw ▸ hserves))
  cases h with
  | spawn => exact hupdate fun _ hserves => hserves.elim
  | recycle => exact hupdate fun _ hserves => hserves.elim
  | @dequeueDone w k b op hwaiting hget hdone =>
      have hop : InUse s.posted s.workers op := inUse_of_getElem? hget
      refine hupdate ?_
      rintro slot ⟨hcall, rfl⟩
      apply hlive
      cases hcall' : op.call with
      | acceptEx => exact hc.accepted op b hop hcall' hdone
      | wsaRecv => exact hc.receiving op hop hcall'
      | wsaSend => exact absurd hcall' hcall
  | @dispatch w _ _ op b hdispatching =>
      have hsound := hs.operations op (Or.inr ⟨w, b, hdispatching⟩)
      rw [hsound.dispatch_eq] at hlive hsame ⊢
      exact hupdate fun slot hserves =>
        hsame hdispatching (serves_of_dispatched hserves)
  | handled hhandling =>
      exact hupdate fun slot hserves => hsame hhandling hserves
  | returnEarly hcalling =>
      exact hupdate fun slot hserves =>
        hsame hcalling (eq_of_serves_after hserves)
  | pop hcalling =>
      exact hupdate fun slot hserves => hsame hcalling hserves
  | post hpopped =>
      exact hupdate fun slot hserves =>
        hsame hpopped (eq_of_serves_after hserves)
  | refused hpopped =>
      exact hupdate fun slot hserves =>
        hsame hpopped (eq_of_serves_after hserves)
  | _ => exact fun w slot hserves => hlive (hc.working w slot hserves)

theorem Connected.log_step (hc : Connected s) (h : Step c handler s e s')
    (slot : ℕ) : Entry.receiving slot .ended ∉ s'.log := by
  cases h with
  | acceptPost | handled | aborted | recvDone =>
      simpa [State.post, State.setObject, State.setWorker] using hc.log slot
  | @post w _ overlapped client call p hpopped =>
      cases call with
      | receiveReady =>
          have hlive : s.connection client = .live :=
            hc.working w client (by rw [hpopped]; rfl)
          simpa [State.post, State.setObject, State.setWorker, Call.entry,
            hlive] using hc.log slot
      | send =>
          simpa [State.post, State.setObject, State.setWorker, Call.entry]
            using hc.log slot
  | _ => exact hc.log slot

theorem Connected.step (hc : Connected s) (hs : Sound c s)
    (hcalm : Undisturbed s e) (h : Step c handler s e s') : Connected s' where
  notEnded := fun slot hended => by
    rcases connection_step hcalm h slot with heq | heq
    · exact hc.notEnded slot (heq ▸ hended)
    · rw [heq] at hended
      cases hended
  receiving := fun op hop hcall => by
    cases hs.origin h hop with
    | kept hop => exact live_step hcalm h (hc.receiving op hop hcall)
    | accepting _ hop =>
        subst hop
        cases hcall
    | @posted w _ client call _ hpopped hop =>
        subst hop
        cases call with
        | receiveReady =>
            exact live_step hcalm h
              (hc.working w client (by rw [hpopped]; rfl))
        | send => cases hcall
    | accepted _ hop =>
        subst hop
        cases hcall
    | received _ hold hop =>
        subst hop
        have hlive := hc.receiving _ hold rfl
        exact live_step hcalm h hlive
    | @finished op₀ _ hold hop =>
        subst hop
        exact live_step hcalm h (hc.receiving op₀ hold hcall)
  accepted := fun op b hop hcall hdone => by
    cases hs.origin h hop with
    | kept hop => exact live_step hcalm h (hc.accepted op b hop hcall hdone)
    | accepting _ hop | posted _ hop =>
        subst hop
        cases hdone
    | accepted _ hop _ hlive =>
        subst hop
        exact hlive
    | received _ _ hop =>
        subst hop
        cases hcall
    | @finished op₀ _ hold hop hfinished =>
        subst hop
        rcases hfinished with ⟨hsend, -⟩ | ⟨hfailed, -⟩
        · rw [hsend] at hcall
          cases hcall
        · rw [hfailed] at hdone
          cases hdone
  succeeded := fun op hop hcall => by
    cases hs.origin h hop with
    | kept hop => exact hc.succeeded op hop hcall
    | accepting _ hop | posted _ hop | accepted _ hop | received _ _ hop =>
        subst hop
        simp
    | @finished op₀ _ hold hop hfinished =>
        subst hop
        rcases hfinished with ⟨hsend, -⟩ | ⟨-, -, k, rfl, hget⟩
        · exact absurd hsend hcall
        · exact absurd (hcalm op₀ hget) hcall
  working := hc.working_step hs hcalm h
  log := hc.log_step h

theorem connected_of_undisturbed
    (hs : Reachable (State.step c handler) (Started c) Undisturbed s) :
    Connected s := by
  induction hs with
  | start hstart =>
      obtain ⟨hg, bg, rfl⟩ := hstart
      have hnone (op : Operation) : ¬ InUse (initialized n c hg bg).posted
          (initialized n c hg bg).workers op := by
        rintro (hmem | ⟨w, b, hw⟩)
        · cases hmem
        · cases hw
      exact {
        notEnded := by rintro _ ⟨⟩
        receiving := fun op hop => absurd hop (hnone op)
        accepted := fun op b hop => absurd hop (hnone op)
        succeeded := fun op hop => absurd hop (hnone op)
        working := fun w slot hserves => hserves.elim
        log := fun slot => List.not_mem_nil }
  | next hreached hcalm hstep ih =>
      exact ih.step (sound_of_reachable hreached).1 hcalm
        (State.step_cases hstep).2

/-- While no connection ends and no socket call of `AcceptReady` or
`ReceiveReady` fails, every slot is served. -/
theorem noSlotLost_of_undisturbed
    (hs : Reachable (State.step c handler) (Started c) Undisturbed s) :
    NoSlotLost c s := by
  have hconnected := connected_of_undisturbed hs
  refine ⟨fun slot hslot => ?_, hconnected.log⟩
  have hturn : 0 < (turn slot).total s := by
    have hone := tokens_eq_one hs hslot
    rw [tokens] at hone
    omega
  rcases Weight.exists_place hturn with hqueue | hposted | hmain | ⟨w, hw⟩
  · simp at hqueue
  · obtain ⟨op, hop, hpos⟩ := hposted
    obtain ⟨hcall, rfl⟩ := turn_ofOperation_pos_iff.mp hpos
    cases hcall' : op.call with
    | acceptEx => exact Or.inr (Or.inl ⟨op, hop, hcall', rfl⟩)
    | wsaRecv =>
        have hlive := hconnected.receiving op (Or.inl hop) hcall'
        exact Or.inr (Or.inr (Or.inl ⟨hlive, op, hop, hcall', rfl⟩))
    | wsaSend => exact absurd hcall' hcall
  · exact Or.inl (turn_ofMain_pos_iff.mp hmain)
  · exact Or.inr (Or.inr (Or.inr ⟨w, turn_ofWorker_pos_iff.mp hw⟩))

/-- The first connection of the server that `main` starts. -/
theorem noSlotLost_firstConnection :
    ∃ s, run (State.step mainConfig fun _ _ (_ : Unit) => .returns)
        (initialized 2 mainConfig (fun _ => []) fun _ => [])
        (firstConnection 0 ()) = some s ∧ NoSlotLost mainConfig s := by
  have hruns : (runWhile
      (State.step mainConfig fun _ _ (_ : Unit) => .returns) Undisturbed
      (initialized 2 mainConfig (fun _ => []) fun _ => [])
      (firstConnection 0 ())).isSome := by
    decide +kernel
  obtain ⟨s, hrun⟩ := Option.isSome_iff_exists.mp hruns
  exact ⟨s, run_of_runWhile hrun,
    noSlotLost_of_undisturbed (.of_runWhile (.start ⟨_, _, rfl⟩) hrun)⟩

/-- The first client closes its connection, and worker 0 goes on as far as the
end of `ReceiveReady`. -/
def gracefulDisconnect {α : Type} (w : Fin 2) (answer : α) :
    List (Event α 2) :=
  firstConnection w answer ++
    [.complete 0 [], .dequeue w 0, .work w true answer, .work w true answer,
      .work w true answer]

set_option maxRecDepth 100000 in
theorem log_gracefulDisconnect {α : Type} (handler : Handler α) (answer : α) :
    (run (State.step mainConfig handler)
        (initialized 2 mainConfig (fun _ => []) fun _ => [])
        (gracefulDisconnect 0 answer)).map (fun s => s.log.head?) =
      some (some (.receiving 1 .ended)) := by
  rfl

/-- After a graceful disconnect the slot is not made ready to accept, but a
receive is posted on the connection that has ended, whatever the receive
callback does. -/
theorem not_noSlotLost_of_gracefulDisconnect :
    ¬ ∃ (α : Type) (_ : Nonempty α) (handler : Handler α),
      ∀ s : State 2,
        Reachable (State.step mainConfig handler) (Started mainConfig)
            unguarded s → NoSlotLost mainConfig s := by
  rintro ⟨α, ⟨answer⟩, handler, hall⟩
  obtain ⟨s, hrun, hhead⟩ :=
    Option.map_eq_some_iff.mp (log_gracefulDisconnect handler answer)
  have hstart : Started mainConfig
      (initialized 2 mainConfig (fun _ => []) fun _ => []) := ⟨_, _, rfl⟩
  have hreached := Reachable.of_unguarded_run (.start hstart) hrun
  exact (hall s hreached).live 1 (List.mem_of_head? hhead)

end RankingServer.Network
