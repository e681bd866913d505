import RankingServer.Network.Buffers

/-!
# The window of start-up

The workers run from the loop of `NetworkManager::Ready` on, the send callback
is stored only after that call has returned.  What a client sends in between is
handed to an empty callback, and nothing else is.
-/

namespace RankingServer.Network

open Transition

variable {α : Type*} {n : ℕ} {c : Config} {handler : Handler α}
  {s s' : State n} {e : Event α n}

/-- The step is a worker's call of the receive callback, which passes the
message to the send callback, before the send callback is stored. -/
def CallsEmpty (s : State n) (e : Event α n) : Prop :=
  s.mSendCallback = false ∧
    ∃ w ok answer overlapped slot received, e = .work w ok answer ∧
      s.workers w = .handling overlapped slot received

/-- Bytes of a client arrive only once the send callback is stored. -/
def Timely (s : State n) : Event α n → Prop
  | .complete k data =>
      ∀ op ∈ s.posted[k]?, op.call = .wsaRecv → data ≠ [] →
        s.mSendCallback = true
  | .main _ | .dequeue _ _ | .work _ _ _ | .fail _ => True

instance (s : State n) : DecidablePred (Timely (α := α) s)
  | .complete k data => inferInstanceAs (Decidable (∀ op ∈ s.posted[k]?,
      op.call = .wsaRecv → data ≠ [] → s.mSendCallback = true))
  | .main _ | .dequeue _ _ | .work _ _ _ | .fail _ =>
      inferInstanceAs (Decidable True)

/-! ## Before the send callback is stored -/

/-- The worker has no bytes of a client, nor a message to send. -/
def Worker.Quiet : Worker → Prop
  | .dispatching op bytesTransferred =>
      op.call = .wsaRecv → bytesTransferred = 0
  | .handling _ _ _ => False
  | .calling _ _ call | .popped _ _ call _ => call = .receiveReady
  | .unstarted | .waiting | .recycling _ => True

/-- The states of start-up in which no bytes have arrived yet. -/
structure Early (s : State n) : Prop where
  noBytes : ∀ op, InUse s.posted s.workers op → op.call = .wsaRecv →
    ∀ b, op.completion = some (.done b) → b = 0
  quiet : ∀ w, (s.workers w).Quiet
  started : ∀ op, InUse s.posted s.workers op → op.call = .wsaRecv →
    ∃ w, s.workers w ≠ .unstarted

theorem mSendCallback_step (h : Step c handler s e s')
    (hempty : s'.mSendCallback = false) : s.mSendCallback = false := by
  cases h with
  | install => cases hempty
  | _ => exact hempty

/-- A worker that has been started stays so. -/
theorem started_step (h : Step c handler s e s') {w : Fin n}
    (hstarted : s.workers w ≠ .unstarted) : s'.workers w ≠ .unstarted := by
  have hmoves (v : Fin n) {next : Worker} (hnext : next ≠ .unstarted) :
      Function.update s.workers v next w ≠ .unstarted := by
    by_cases hwv : w = v
    · subst hwv
      rwa [Function.update_self]
    · rwa [Function.update_of_ne hwv]
  have hafter (overlapped : Pointer) (slot : ℕ) (call : Call) :
      call.after overlapped slot ≠ .unstarted := by
    cases call <;> simp [Call.after]
  cases h with
  | spawn | dequeueDone | handled | pop | recycle =>
      exact hmoves _ (by simp)
  | returnEarly | post | refused => exact hmoves _ (hafter _ _ _)
  | dispatch =>
      refine hmoves _ ?_
      rw [Session.dispatch]
      split
      · split <;> simp
      · split
        · split <;> simp
        · simp
      · simp
      · simp
  | _ => exact hstarted

/-- Only a receive adds to what has arrived. -/
theorem posted_of_arrived {k slot : ℕ} {data : List UInt8}
    (h : Step c handler s (.complete k data) s')
    (hlog : s'.log = .arrived slot data :: s.log) :
    ∃ op ∈ s.posted[k]?, op.call = .wsaRecv := by
  cases h with
  | acceptDone | sendDone =>
      have hself : s.log = .arrived slot data :: s.log := hlog
      exact absurd hself.symm (List.cons_ne_self _ _)
  | recvDone hget => exact ⟨_, hget, rfl⟩

theorem Early.noBytes_step (he : Early s) (hs : Sound c s)
    (h : Step c handler s e s') (htimely : Timely s e)
    (hempty : s.mSendCallback = false) (op : Operation)
    (hop : InUse s'.posted s'.workers op) (hcall : op.call = .wsaRecv) (b : ℕ)
    (hdone : op.completion = some (.done b)) : b = 0 := by
  cases hs.origin h hop with
  | kept hold => exact he.noBytes op hold hcall b hdone
  | accepting hmain hop =>
      subst hop
      cases hcall
  | posted hpopped hop =>
      subst hop
      cases hdone
  | accepted hold hop =>
      subst hop
      cases hcall
  | @received _ _ k data hevent hold hop _ hlog =>
      subst hevent hop
      obtain ⟨op₀, hget, hcall₀⟩ := posted_of_arrived h hlog
      have hnothing : data = [] := by
        by_contra hdata
        have hstored := htimely op₀ hget hcall₀ hdata
        rw [hempty] at hstored
        cases hstored
      subst hnothing
      cases hdone
      rfl
  | finished hold hop hfinished =>
      subst hop
      rcases hfinished with ⟨hsend, -⟩ | ⟨hfailed, -⟩
      · rw [hcall] at hsend
        cases hsend
      · rw [hfailed] at hdone
        cases hdone

theorem dispatched_of_quiet (o : CustomOverlapped) {op : Operation} {b : ℕ}
    (hquiet : (Worker.dispatching op b).Quiet) :
    Session.dispatched o op b = .calling op.overlapped op.slot .receiveReady ∨
      Session.dispatched o op b = .recycling op.overlapped := by
  rw [Session.dispatched]
  split
  · exact Or.inl rfl
  · next hcall => exact Or.inl (if_pos (hquiet hcall))
  · exact Or.inr rfl

theorem Early.quiet_step (he : Early s) (hs : Sound c s)
    (h : Step c handler s e s') : ∀ w, (s'.workers w).Quiet := by
  have hupdate {w : Fin n} {next : Worker} (hnext : next.Quiet) :
      ∀ v, (Function.update s.workers w next v).Quiet :=
    (Function.forall_update_iff s.workers fun _ => Worker.Quiet).mpr
      ⟨hnext, fun v _ => he.quiet v⟩
  have hquiet {w : Fin n} {worker : Worker} (hw : s.workers w = worker) :
      worker.Quiet := hw ▸ he.quiet w
  cases h with
  | spawn | recycle => exact hupdate trivial
  | dequeueDone hwaiting hget hdone =>
      exact hupdate fun hcall =>
        he.noBytes _ (inUse_of_getElem? hget) hcall _ hdone
  | dispatch hw =>
      refine hupdate ?_
      rw [(hs.operations _ (Or.inr ⟨_, _, hw⟩)).dispatch_eq]
      rcases dispatched_of_quiet _ (hquiet hw) with hnext | hnext
      · rw [hnext]
        rfl
      · rw [hnext]
        trivial
  | handled hw => exact (hquiet hw).elim
  | returnEarly hw | post hw | refused hw =>
      obtain rfl : _ = Call.receiveReady := hquiet hw
      exact hupdate trivial
  | pop hw =>
      have hready : _ = Call.receiveReady := hquiet hw
      exact hupdate hready
  | _ => exact he.quiet

theorem Early.started_step (he : Early s) (hs : Sound c s)
    (h : Step c handler s e s') (op : Operation)
    (hop : InUse s'.posted s'.workers op) (hcall : op.call = .wsaRecv) :
    ∃ w, s'.workers w ≠ .unstarted := by
  have hbefore : ∃ w, s.workers w ≠ .unstarted := by
    cases hs.origin h hop with
    | kept hold => exact he.started op hold hcall
    | accepting hmain hop | accepted hold hop =>
        subst hop
        cases hcall
    | @posted w _ _ _ _ hpopped => exact ⟨w, by simp [hpopped]⟩
    | received _ hold => exact he.started _ hold rfl
    | finished hold hop =>
        subst hop
        exact he.started _ hold hcall
  obtain ⟨w, hw⟩ := hbefore
  exact ⟨w, Network.started_step h hw⟩

theorem Early.step (he : Early s) (hs : Sound c s) (h : Step c handler s e s')
    (htimely : Timely s e) (hempty : s.mSendCallback = false) : Early s' where
  noBytes := he.noBytes_step hs h htimely hempty
  quiet := he.quiet_step hs h
  started := he.started_step hs h

theorem early_initialized (n : ℕ) (c : Config)
    (hg bg : Pointer → List UInt8) : Early (initialized n c hg bg) := by
  have hnone (op : Operation) :
      ¬ InUse (initialized n c hg bg).posted (initialized n c hg bg).workers
        op := by
    rintro (hmem | ⟨w, b, hw⟩)
    · cases hmem
    · cases hw
  exact ⟨fun op hop => absurd hop (hnone op), fun _ => trivial,
    fun op hop => absurd hop (hnone op)⟩

/-- As long as all bytes come in time, none have come while the send callback is
not stored. -/
theorem early_of_timely
    (hs : Reachable (State.step c handler) (Started c) Timely s)
    (hempty : s.mSendCallback = false) : Early s := by
  have hinit (s : State n) (hstart : Started c s) :
      Sound c s ∧ (s.mSendCallback = false → Early s) := by
    obtain ⟨hg, bg, rfl⟩ := hstart
    exact ⟨sound_initialized n c hg bg, fun _ => early_initialized n c hg bg⟩
  have hstep (s : State n) (e : Event α n) (s' : State n)
      (hinv : Sound c s ∧ (s.mSendCallback = false → Early s))
      (htimely : Timely s e) (hstep : State.step c handler s e = some s') :
      Sound c s' ∧ (s'.mSendCallback = false → Early s') := by
    have h := (State.step_cases hstep).2
    refine ⟨hinv.1.step h, fun hempty' => ?_⟩
    have hempty := mSendCallback_step h hempty'
    exact (hinv.2 hempty).step hinv.1 h htimely hempty
  exact (hs.invariant hinit hstep).2 hempty

/-- When all bytes come in time, the empty send callback is not called. -/
theorem not_callsEmpty_of_timely
    (hs : Reachable (State.step c handler) (Started c) Timely s)
    (e : Event α n) : ¬ CallsEmpty s e := by
  rintro ⟨hempty, w, ok, answer, overlapped, slot, received, rfl, hw⟩
  have hquiet := (early_of_timely hs hempty).quiet w
  rw [hw] at hquiet
  exact hquiet

/-! ## When bytes come too early -/

/-- In `t` the worker waits at the port, and nothing has happened since `s` that
matters to what is posted. -/
structure Settled (w : Fin n) (s t : State n) : Prop where
  waiting : t.workers w = .waiting
  posted : t.posted = s.posted
  mSendCallback : t.mSendCallback = s.mSendCallback
  crash : t.crash = s.crash

/-- The worker can get back to the port. -/
def Settles (c : Config) (handler : Handler α) (w : Fin n) (s : State n) :
    Prop :=
  ∃ es t, run (State.step c handler) s es = some t ∧ Settled w s t

section Settling

variable {w : Fin n} {overlapped : Pointer} {slot : ℕ}

theorem Settles.of_step (hcrash : s.crash = none) (h : Step c handler s e s')
    (hposted : s'.posted = s.posted)
    (hcallback : s'.mSendCallback = s.mSendCallback)
    (hcrash' : s'.crash = s.crash) (hs' : Settles c handler w s') :
    Settles c handler w s := by
  obtain ⟨es, t, hrun, ht⟩ := hs'
  refine ⟨e :: es, t, ?_, ht.waiting, ht.posted.trans hposted,
    ht.mSendCallback.trans hcallback, ht.crash.trans hcrash'⟩
  rw [run_cons, State.step_eq_some hcrash h]
  exact hrun

theorem settles_waiting (hw : s.workers w = .waiting) :
    Settles c handler w s :=
  ⟨[], s, rfl, hw, rfl, rfl, rfl⟩

theorem settles_recycling (answer : α) (hcrash : s.crash = none)
    (hw : s.workers w = .recycling overlapped) : Settles c handler w s := by
  have h : Step c handler s (.work w true answer) _ := .recycle hw
  exact .of_step hcrash h rfl rfl rfl
    (settles_waiting (Function.update_self _ _ _))

theorem settles_calling (answer : α) (hcrash : s.crash = none)
    (hw : s.workers w = .calling overlapped slot .receiveReady) :
    Settles c handler w s := by
  have hearly : Call.receiveReady.ReturnsEarly c false := rfl
  have h : Step c handler s (.work w false answer) _ := .returnEarly hw hearly
  exact .of_step hcrash h rfl rfl rfl
    (settles_recycling answer hcrash (Function.update_self _ _ _))

theorem settles_popped (answer : α) (hcrash : s.crash = none) {p : Pointer}
    (hw : s.workers w = .popped overlapped slot .receiveReady p) :
    Settles c handler w s := by
  have h : Step c handler s (.work w false answer) _ := .refused hw
  exact .of_step hcrash h rfl rfl rfl
    (settles_recycling answer hcrash (Function.update_self _ _ _))

theorem settles_dispatching (hs : Sound c s) (answer : α)
    (hcrash : s.crash = none) {op : Operation} {b : ℕ}
    (hw : s.workers w = .dispatching op b)
    (hquiet : (Worker.dispatching op b).Quiet) : Settles c handler w s := by
  have h : Step c handler s (.work w true answer) _ := .dispatch hw
  rw [(hs.operations op (Or.inr ⟨w, b, hw⟩)).dispatch_eq] at h
  refine .of_step hcrash h rfl rfl rfl ?_
  rcases dispatched_of_quiet (s.heap op.overlapped) hquiet with hnext | hnext
  · rw [hnext]
    exact settles_calling answer hcrash (Function.update_self _ _ _)
  · rw [hnext]
    exact settles_recycling answer hcrash (Function.update_self _ _ _)

/-- A worker without bytes of a client can get back to the port. -/
theorem settles_of_quiet (hs : Sound c s) (answer : α)
    (hcrash : s.crash = none) (hstarted : s.workers w ≠ .unstarted)
    (hquiet : (s.workers w).Quiet) : Settles c handler w s := by
  cases hw : s.workers w with
  | unstarted => exact absurd hw hstarted
  | waiting => exact settles_waiting hw
  | dispatching op b =>
      rw [hw] at hquiet
      exact settles_dispatching hs answer hcrash hw hquiet
  | handling overlapped slot received =>
      rw [hw] at hquiet
      exact hquiet.elim
  | calling overlapped slot call =>
      rw [hw] at hquiet
      obtain rfl : call = .receiveReady := hquiet
      exact settles_calling answer hcrash hw
  | popped overlapped slot call p =>
      rw [hw] at hquiet
      obtain rfl : call = .receiveReady := hquiet
      exact settles_popped answer hcrash hw
  | recycling overlapped => exact settles_recycling answer hcrash hw

end Settling

variable (handler) in
/-- A worker at the port can take a receive that has brought bytes and hand them
to the callback. -/
theorem exists_handling (hs : Sound c s) (answer : α) (hcrash : s.crash = none)
    {w : Fin n} (hw : s.workers w = .waiting) {k b : ℕ} {op : Operation}
    (hget : s.posted[k]? = some op) (hcall : op.call = .wsaRecv)
    (hdone : op.completion = some (.done b)) (hbytes : b ≠ 0) :
    ∃ t, run (State.step c handler) s [.dequeue w k, .work w true answer] =
        some t ∧ t.mSendCallback = s.mSendCallback ∧ t.crash = none ∧
      ∃ overlapped slot received,
        t.workers w = .handling overlapped slot received := by
  let u := { s.setWorker w (.dispatching op b) with
    posted := s.posted.eraseIdx k }
  have htake : Step c handler s (.dequeue w k) u := .dequeueDone hw hget hdone
  have hself : u.workers w = .dispatching op b := Function.update_self _ _ _
  have hdispatch : Step c handler u (.work w true answer) _ := .dispatch hself
  have hsound := (hs.step htake).operations op (Or.inr ⟨w, b, hself⟩)
  have hnext : Session.dispatched (u.heap op.overlapped) op b =
      .handling op.overlapped op.slot
        (Session.received op.slot (u.heap op.overlapped)) := by
    simp only [Session.dispatched, hcall, if_neg hbytes]
  rw [hsound.dispatch_eq, hnext] at hdispatch
  have hrun := run_pair (State.step_eq_some hcrash htake)
    (State.step_eq_some hcrash hdispatch)
  exact ⟨_, hrun, rfl, hcrash, _, _, _, Function.update_self _ _ _⟩

/-- Whatever the callback makes of the message, the call is a step. -/
theorem exists_step_handling (c : Config) (handler : Handler α) (answer : α)
    (hcrash : s.crash = none) {w : Fin n} {overlapped : Pointer} {slot : ℕ}
    {received : Received}
    (hw : s.workers w = .handling overlapped slot received) :
    ∃ s', State.step c handler s (.work w true answer) = some s' := by
  cases hreaction : handler s.mSendCallback received answer with
  | returns =>
      have hcall : handler s.mSendCallback received answer =
          Call.receiveReady.reaction := hreaction
      exact ⟨_, State.step_eq_some hcrash (.handled hw hcall)⟩
  | sends socketId contentsType bodyBuffer =>
      have hcall : handler s.mSendCallback received answer =
          (Call.send socketId contentsType bodyBuffer).reaction := hreaction
      exact ⟨_, State.step_eq_some hcrash (.handled hw hcall)⟩
  | aborts => exact ⟨_, State.step_eq_some hcrash (.aborted hw hreaction)⟩

/-- A step that is not timely completes a receive with bytes while the send
callback is empty. -/
theorem recvDone_of_not_timely (h : Step c handler s e s')
    (hlate : ¬ Timely s e) :
    s.mSendCallback = false ∧
      (∃ op ∈ s.posted, op.call = .wsaRecv) ∧
      (∃ (k : ℕ) (op : Operation) (b : ℕ), s'.posted[k]? = some op ∧
        op.call = .wsaRecv ∧ op.completion = some (.done b) ∧ b ≠ 0) ∧
      s'.workers = s.workers ∧ s'.mSendCallback = s.mSendCallback ∧
        s'.crash = s.crash := by
  cases h with
  | @recvDone k data p slot hget =>
      have hbytes : data ≠ [] ∧ ¬ s.mSendCallback = true := by
        by_contra hfine
        refine hlate fun op _ _ hdata => ?_
        by_contra hempty
        exact hfine ⟨hdata, hempty⟩
      let op : Operation := ⟨p, .wsaRecv, slot, some (.done data.length)⟩
      have hset : (s.posted.set k op)[k]? = some op :=
        List.getElem?_set_self (List.getElem?_eq_some_iff.mp hget).1
      exact ⟨by simpa using hbytes.2, ⟨_, List.mem_of_getElem? hget, rfl⟩,
        ⟨k, op, data.length, hset, rfl, rfl, by simpa using hbytes.1⟩,
        rfl, rfl, rfl⟩
  | acceptDone hget | sendDone hget =>
      refine absurd (fun op hop hcall => ?_) hlate
      obtain rfl := Option.some.inj (hget.symm.trans hop)
      cases hcall
  | _ => exact absurd trivial hlate

/-- Bytes that come too early can reach the empty send callback. -/
theorem exists_callsEmpty_of_not_timely
    (hs : Reachable (State.step c handler) (Started c) Timely s)
    (hstep : State.step c handler s e = some s') (hlate : ¬ Timely s e)
    (answer : α) :
    ∃ es t f t', run (State.step c handler) s' es = some t ∧
      CallsEmpty t f ∧ State.step c handler t f = some t' := by
  have hsound := (sound_of_reachable hs).1
  obtain ⟨hcrash, h⟩ := State.step_cases hstep
  obtain ⟨hempty, ⟨op, hmem, hcall⟩, ⟨k, op', b, hget, hcall', hdone, hbytes⟩,
    hworkers, hempty', hcrash'⟩ := recvDone_of_not_timely h hlate
  have hearly := early_of_timely hs hempty
  obtain ⟨w, hstarted⟩ := hearly.started op (Or.inl hmem) hcall
  obtain ⟨es, t, hrun, ht⟩ : Settles c handler w s' :=
    settles_of_quiet (hsound.step h) answer (hcrash'.trans hcrash)
      (hworkers ▸ hstarted) (hworkers ▸ hearly.quiet w)
  have hsound' : Sound c t := (sound_of_reachable
    ((hs.unguarded.next trivial hstep).of_unguarded_run hrun)).1
  obtain ⟨u, hrun', hcallback, hcrash'', overlapped, slot', received, hw⟩ :=
    exists_handling handler hsound' answer
      (ht.crash.trans (hcrash'.trans hcrash)) ht.waiting
      (ht.posted ▸ hget) hcall' hdone hbytes
  obtain ⟨u', hu'⟩ := exists_step_handling c handler answer hcrash'' hw
  refine ⟨_, u, .work w true answer, u', run_trans hrun hrun', ⟨?_, ?_⟩, hu'⟩
  · rw [hcallback, ht.mSendCallback, hempty', hempty]
  · exact ⟨w, true, answer, _, _, _, rfl, hw⟩

end RankingServer.Network
