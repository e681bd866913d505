import RankingServer.Network.Buffers

/-!
# When the pool runs dry

As long as no socket call fails, the pool loses no object, and a pop finds the
queue empty exactly when all objects are posted or held by threads.  Accepts and
receives are limited by the number of clients, but every answered request posts
a send, whether or not the earlier ones have completed: a client that does not
read its responses empties the pool.
-/

namespace RankingServer.Network

open Transition Utility

variable {α : Type*} {n : ℕ} {c : Config} {handler : Handler α}
  {s s' : State n} {e : Event α n}

/-- The event involves no failed socket call. -/
def Succeeds : Event α n → Prop
  | .main ok | .work _ ok _ => ok = true
  | .dequeue _ _ | .complete _ _ => True
  | .fail _ => False

instance : DecidablePred (Succeeds (α := α) (n := n))
  | .main _ | .work _ _ _ => inferInstanceAs (Decidable (_ = true))
  | .dequeue _ _ | .complete _ _ => inferInstanceAs (Decidable True)
  | .fail _ => inferInstanceAs (Decidable False)

/-- The step pops an object. -/
def Pops (c : Config) (s : State n) : Event α n → Prop
  | .main ok =>
      match s.main with
      | .accepting (_ :: _) => ok = true
      | _ => False
  | .work w ok _ =>
      match s.workers w with
      | .calling _ _ call => ¬ call.ReturnsEarly c ok
      | _ => False
  | .dequeue _ _ | .complete _ _ | .fail _ => False

/-- The number of objects that are posted or held by a thread. -/
def handedOut (s : State n) : ℕ :=
  s.posted.length + (holding fun _ => 1).ofMain s.main +
    (holding fun _ => 1).ofWorkers s.workers

/-- No completion in sight is a failure. -/
def NoneFailed (s : State n) : Prop :=
  ∀ op, InUse s.posted s.workers op → op.completion ≠ some .failed

theorem noneFailed_step (hs : Sound c s) (hfailed : NoneFailed s)
    (hsucceeds : Succeeds e) (h : Step c handler s e s') : NoneFailed s' := by
  intro op hop
  cases hs.origin h hop with
  | kept hop => exact hfailed op hop
  | accepting _ hop | posted _ hop | accepted _ hop | received _ _ hop =>
      subst hop
      simp
  | finished _ hop hfinished =>
      subst hop
      rcases hfinished with ⟨-, b, hdone⟩ | ⟨-, -, k, rfl, -⟩
      · rw [hdone]
        simp
      · exact hsucceeds.elim

theorem not_drops_of_succeeds (hfailed : NoneFailed s)
    (hsucceeds : Succeeds e) : ¬ Drops s e := by
  intro hdrops
  cases e with
  | main ok =>
      cases hsucceeds
      simp only [Drops] at hdrops
      split at hdrops <;> cases hdrops
  | dequeue w k =>
      obtain ⟨op, hget, hcompletion⟩ := Option.bind_eq_some_iff.mp hdrops
      exact hfailed op (inUse_of_getElem? hget) hcompletion
  | work w ok answer =>
      cases hsucceeds
      simp only [Drops] at hdrops
      split at hdrops <;> cases hdrops
  | complete | fail => exact hdrops

theorem objects_eq (hs : Sound c s) :
    objects s = s.mOverlappedQueue.contents.length + handedOut s := by
  have hposted : (holding fun _ => 1).ofPosted s.posted = s.posted.length := by
    rw [Weight.ofPosted]
    change (s.posted.map fun _ => 1).sum = _
    simp
  rw [objects, Weight.total, holding_one_ofQueue hs.noNull, hposted, handedOut]
  omega

/-- A null pointer is dereferenced exactly in a call that pops from the empty
queue. -/
theorem crash_step_iff (hcrash : s.crash = none)
    (h : Step c handler s e s') :
    s'.crash = some .nullPointer ↔
      Pops c s e ∧ s.mOverlappedQueue.pop.2 = none := by
  cases h with
  | acceptNull hmain hpop => simp [Pops, hmain, hpop]
  | acceptPop hmain hpop => simp [hpop, hcrash]
  | popNull hcalling hearly hpop => simp [Pops, hcalling, hearly, hpop]
  | pop hcalling hearly hpop => simp [hpop, hcrash, State.setWorker]
  | acceptEnd hmain | acceptSkip hmain | acceptPost hmain
  | acceptRefused hmain | spawn _ hmain | install hmain =>
      simp [Pops, hmain, hcrash, State.setWorker, State.setObject, State.post]
  | dispatch hdispatching => simp [Pops, hdispatching, hcrash, State.setWorker]
  | handled hhandling => simp [Pops, hhandling, hcrash, State.setWorker]
  | aborted hhandling => simp [Pops, hhandling]
  | returnEarly hcalling hearly =>
      simp [Pops, hcalling, hearly, hcrash, State.setWorker]
  | post hpopped | refused hpopped =>
      simp [Pops, hpopped, hcrash, State.setWorker, State.setObject, State.post]
  | recycle hrecycling =>
      simp [Pops, hrecycling, hcrash, State.setWorker, State.setObject]
  | dequeueFailed | dequeueDone | acceptDone | recvDone | sendDone | fail =>
      simp [Pops, hcrash, State.setWorker, State.setObject]

/-- What holds in every state of a run without failed socket calls. -/
structure Flawless (c : Config) (s : State n) : Prop where
  sound : Sound c s
  noneFailed : NoneFailed s
  objects_eq : objects s = c.poolSize - 1

theorem Flawless.step (hs : Flawless c s) (hsucceeds : Succeeds e)
    (h : Step c handler s e s') : Flawless c s' where
  sound := hs.sound.step h
  noneFailed := noneFailed_step hs.sound hs.noneFailed hsucceeds h
  objects_eq := by
    have hkeeps := not_drops_of_succeeds hs.noneFailed hsucceeds
    rcases holding_step hs.sound h with ⟨-, hkept⟩ | ⟨hdrops, -⟩
    · exact (hkept _).trans hs.objects_eq
    · exact absurd hdrops hkeeps

theorem flawless_initialized (n : ℕ) (c : Config)
    (hg bg : Pointer → List UInt8) : Flawless c (initialized n c hg bg) where
  sound := sound_initialized n c hg bg
  noneFailed := fun op hop => by
    rcases hop with hmem | ⟨w, b, hw⟩
    · cases hmem
    · cases hw
  objects_eq := by
    rw [objects, holding_initialized]
    simp

/-- The queue is empty when all objects are handed out. -/
theorem Flawless.pop_eq_none_iff (hs : Flawless c s) :
    s.mOverlappedQueue.pop.2 = none ↔ ¬ handedOut s < c.poolSize - 1 := by
  have hsum := RankingServer.Network.objects_eq hs.sound
  rw [hs.objects_eq] at hsum
  rw [RankingServer.Network.pop_eq_none_iff hs.sound.noNull,
    ← List.length_eq_zero_iff]
  omega

/-- In a run without failed socket calls, no null pointer is dereferenced
exactly when at every pop some object is neither posted nor held by a thread. -/
theorem no_nullPointer_iff_pool_suffices (handler : Handler α) (n : ℕ)
    (c : Config) (hg bg : Pointer → List UInt8) (es : List (Event α n))
    (hsucceeds : Every (State.step c handler) (fun _ e => Succeeds e)
      (initialized n c hg bg) es) :
    Throughout (State.step c handler) (fun s => s.crash ≠ some .nullPointer)
        (initialized n c hg bg) es ↔
      Every (State.step c handler)
        (fun s e => Pops c s e → handedOut s < c.poolSize - 1)
        (initialized n c hg bg) es := by
  have hinv (s : State n) (e : Event α n) (s' : State n) (hs : Flawless c s)
      (hsucceeds : Succeeds e) (hstep : State.step c handler s e = some s') :
      Flawless c s' :=
    hs.step hsucceeds (State.step_cases hstep).2
  have hiff (s : State n) (e : Event α n) (s' : State n) (hs : Flawless c s)
      (_ : s.crash ≠ some .nullPointer) (_ : Succeeds e)
      (hstep : State.step c handler s e = some s') :
      s'.crash ≠ some .nullPointer ↔
        (Pops c s e → handedOut s < c.poolSize - 1) := by
    obtain ⟨hcrash, h⟩ := State.step_cases hstep
    rw [Ne, crash_step_iff hcrash h, hs.pop_eq_none_iff]
    tauto
  exact throughout_iff_every_of_allowed hinv hiff
    (flawless_initialized n c hg bg) (Option.some_ne_none _).symm hsucceeds

/-! ## A client that does not read its responses -/

/-- States of runs without failed socket calls. -/
abbrev ReachedBySuccess (c : Config) (handler : Handler α) :
    State n → Prop :=
  Reachable (State.step c handler) (Started c) fun _ e => Succeeds e

theorem ReachedBySuccess.next (hreached : ReachedBySuccess c handler s)
    (hcrash : s.crash = none) (h : Step c handler s e s')
    (hsucceeds : Succeeds e) : ReachedBySuccess c handler s' :=
  Reachable.next hreached hsucceeds (State.step_eq_some hcrash h)

/-- A running server with a worker at the given program point, a live connection
on the slot and the given objects in the queue. -/
structure At (w : Fin n) (worker : Worker) (slot : ℕ)
    (contents : List (Option Pointer)) (s : State n) : Prop where
  crash : s.crash = none
  installed : s.mSendCallback = true
  worker : s.workers w = worker
  live : s.connection slot = .live
  contents : s.mOverlappedQueue.contents = contents

/-- The request leads to a response on the same slot. -/
def Responds (handler : Handler α) (slot : ℕ) (request : List UInt8)
    (answer : α) : Prop :=
  ∀ o : CustomOverlapped, o.Blank →
    ∃ contentsType body,
      handler true (Session.received slot (o.receive request)) answer =
        .sends slot contentsType body

variable {w : Fin n} {slot : ℕ} {p q : Pointer} {request : List UInt8}
  {answer : α} {rest : List (Option Pointer)}

/-- A posted receive completes with the request, and the worker that dequeues it
comes to the receive callback. -/
theorem handling_of_request (answer : α)
    (hreached : ReachedBySuccess c handler s)
    (hs : At w .waiting slot rest s)
    (hposted : s.posted[0]? = some ⟨p, .wsaRecv, slot, none⟩)
    (hrequest : request ≠ [])
    (hfits : request.length ≤ HEADER_SIZE + BUFFER_SIZE) :
    ∃ (s' : State n) (o : CustomOverlapped),
      ReachedBySuccess c handler s' ∧ o.Blank ∧
        At w (.handling p slot (Session.received slot (o.receive request)))
          slot rest s' := by
  have hblank := (sound_of_reachable hreached).2.blank _
    (inUse_of_getElem? hposted) rfl rfl
  have hroom : request.length ≤ (s.heap p).headerLen + (s.heap p).bodyLen := by
    rw [hblank.headerLen, hblank.bodyLen]
    exact hfits
  have harrived := hreached.next (e := .complete 0 request) hs.crash
    (.recvDone hposted hroom (Or.inr hs.live)) trivial
  have hget : (s.posted.set 0 ⟨p, .wsaRecv, slot,
      some (.done request.length)⟩)[0]? =
        some ⟨p, .wsaRecv, slot, some (.done request.length)⟩ := by
    obtain ⟨hlt, -⟩ := List.getElem?_eq_some_iff.mp hposted
    exact List.getElem?_set_self hlt
  have hdequeued := harrived.next (e := .dequeue w 0) hs.crash
    (.dequeueDone hs.worker hget rfl) trivial
  have hworker : Function.update s.workers w (.dispatching
      ⟨p, .wsaRecv, slot, some (.done request.length)⟩ request.length) w = _ :=
    Function.update_self _ _ _
  have hsound := (sound_of_reachable hdequeued).1.operations _
    (Or.inr ⟨w, _, hworker⟩)
  have hdispatched := hdequeued.next (e := .work w true answer) hs.crash
    (.dispatch hworker) rfl
  refine ⟨_, s.heap p, hdispatched, hblank, hs.crash, hs.installed, ?_, ?_, ?_⟩
  · refine (Function.update_self _ _ _).trans ?_
    have hlength : request.length ≠ 0 :=
      fun h => hrequest (List.length_eq_zero_iff.mp h)
    rw [hsound.dispatch_eq, Session.dispatched]
    simp only [if_neg hlength]
    have hheap : Function.update s.heap p ((s.heap p).receive request) p =
        (s.heap p).receive request := Function.update_self _ _ _
    exact congrArg
      (fun o => Worker.handling p slot (Session.received slot o)) hheap
  · exact (congrFun (if_neg hrequest) slot).trans hs.live
  · exact hs.contents

/-- A call takes the first object of the queue and posts it. -/
theorem posted_of_calling (answer : α)
    (hreached : ReachedBySuccess c handler s) {call : Call}
    (hs : At w (.calling p slot call) slot (some q :: rest) s)
    (hearly : ¬ call.ReturnsEarly c true) :
    ∃ s' : State n, ReachedBySuccess c handler s' ∧
      At w (call.after p slot) slot rest s' ∧
        s'.posted[0]? = some ⟨q, call.socketCall, call.target slot, none⟩ := by
  obtain ⟨hpop, hrest⟩ := s.mOverlappedQueue.pop_of_cons hs.contents
  have hpopped := hreached.next (e := .work w true answer) hs.crash
    (.pop hs.worker hearly hpop) rfl
  have hworker : Function.update s.workers w (.popped p slot call q) w = _ :=
    Function.update_self _ _ _
  have hposted := hpopped.next (e := .work w true answer) hs.crash
    (.post hworker) rfl
  exact ⟨_, hposted, ⟨hs.crash, hs.installed, Function.update_self _ _ _,
    hs.live, hrest⟩, rfl⟩

/-- A worker returns its object to a queue that has room. -/
theorem waiting_of_recycling (answer : α)
    (hreached : ReachedBySuccess c handler s)
    (hs : At w (.recycling p) slot rest s) :
    ∃ s' : State n, ReachedBySuccess c handler s' ∧
      At w .waiting slot (rest ++ [some p]) s' ∧ s'.posted = s.posted := by
  have hroom := (sound_of_reachable hreached).1.room hs.worker
  have hpush := (s.mOverlappedQueue.push_of_room (some p) hroom).2
  rw [hs.contents] at hpush
  have hrecycled := hreached.next (e := .work w true answer) hs.crash
    (.recycle hs.worker) rfl
  exact ⟨_, hrecycled, ⟨hs.crash, hs.installed, Function.update_self _ _ _,
    hs.live, hpush⟩, rfl⟩

/-- A request that leads to a response takes one object out of the queue. -/
theorem answered_of_request (answer : α)
    (hreached : ReachedBySuccess c handler s)
    (hs : At w .waiting slot (some q :: rest) s)
    (hposted : s.posted[0]? = some ⟨p, .wsaRecv, slot, none⟩)
    (hslot : c.IsSlot slot)
    (hresponds : Responds handler slot request answer)
    (hrequest : request ≠ [])
    (hfits : request.length ≤ HEADER_SIZE + BUFFER_SIZE) :
    ∃ s' : State n, ReachedBySuccess c handler s' ∧
      At w (.calling p slot .receiveReady) slot rest s' := by
  obtain ⟨s₁, o, hreached₁, hblank, hs₁⟩ :=
    handling_of_request answer hreached hs hposted hrequest hfits
  obtain ⟨contentsType, body, hreact⟩ := hresponds o hblank
  have hreaction : handler s₁.mSendCallback
      (Session.received slot (o.receive request)) answer =
        (Call.send slot contentsType body).reaction := by
    rw [hs₁.installed]
    exact hreact
  have hreached₂ := hreached₁.next (e := .work w true answer) hs₁.crash
    (.handled hs₁.worker hreaction) rfl
  obtain ⟨s₃, hreached₃, hs₃, -⟩ := posted_of_calling answer hreached₂
    ⟨hs₁.crash, hs₁.installed, Function.update_self _ _ _, hs₁.live,
      hs₁.contents⟩ (not_not.mpr hslot)
  exact ⟨s₃, hreached₃, hs₃⟩

/-- Each request leaves one object less in the queue, until `ReceiveReady` finds
none and dereferences a null pointer. -/
theorem exists_nullPointer (answer : α) (hslot : c.IsSlot slot)
    (hresponds : Responds handler slot request answer)
    (hrequest : request ≠ [])
    (hfits : request.length ≤ HEADER_SIZE + BUFFER_SIZE) (k : ℕ) :
    ∀ (p : Pointer) (contents : List (Option Pointer)) (s : State n),
      ReachedBySuccess c handler s → At w .waiting slot contents s →
        s.posted[0]? = some ⟨p, .wsaRecv, slot, none⟩ →
        contents.length = k + 1 →
        ∃ s' : State n, ReachedBySuccess c handler s' ∧
          s'.crash = some .nullPointer := by
  induction k with
  | zero =>
      intro p contents s hreached hs hposted hlength
      obtain ⟨front, rfl⟩ := List.length_eq_one_iff.mp hlength
      have hnull := (sound_of_reachable hreached).1.noNull
      rw [hs.contents] at hnull
      cases front with
      | none => simp at hnull
      | some q =>
          obtain ⟨s', hreached', hs'⟩ := answered_of_request answer hreached hs
            hposted hslot hresponds hrequest hfits
          have hpop : s'.mOverlappedQueue.pop.2 = none := by
            rw [s'.mOverlappedQueue.pop_of_nil hs'.contents]
            rfl
          have hdry := hreached'.next (e := .work w true answer) hs'.crash
            (.popNull hs'.worker (by simp [Call.ReturnsEarly]) hpop) rfl
          exact ⟨_, hdry, rfl⟩
  | succ k ih =>
      intro p contents s hreached hs hposted hlength
      have hnull := (sound_of_reachable hreached).1.noNull
      rw [hs.contents] at hnull
      match contents, hlength with
      | some q :: some q' :: rest, hlength =>
          obtain ⟨s₁, hreached₁, hs₁⟩ := answered_of_request answer hreached hs
            hposted hslot hresponds hrequest hfits
          obtain ⟨s₂, hreached₂, hs₂, hposted₂⟩ := posted_of_calling answer
            hreached₁ hs₁ (by simp [Call.ReturnsEarly])
          obtain ⟨s₃, hreached₃, hs₃, hposted₃⟩ :=
            waiting_of_recycling answer hreached₂ hs₂
          refine ih q' _ s₃ hreached₃ hs₃ (hposted₃ ▸ hposted₂) ?_
          simpa using hlength
      | none :: _, _ => simp at hnull
      | some q :: none :: _, _ => simp at hnull

set_option maxRecDepth 100000 in
theorem at_firstConnection {α : Type} (handler : Handler α) (answer : α) :
    ∃ s, run (State.step mainConfig handler)
        (initialized 2 mainConfig (fun _ => []) fun _ => [])
        (firstConnection 0 answer) = some s ∧
      s.crash = none ∧ s.mSendCallback = true ∧ s.workers 0 = .waiting ∧
      s.connection 1 = .live ∧ s.mOverlappedQueue.contents.length = 189 ∧
      s.posted[0]? = some ⟨10, .wsaRecv, 1, none⟩ :=
  ⟨_, rfl, rfl, rfl, rfl, rfl, rfl, rfl⟩

theorem succeeds_firstConnection {α : Type} (w : Fin 2) (answer : α) :
    ∀ e ∈ firstConnection w answer, Succeeds e := by
  simp [firstConnection, startUp, Succeeds]

/-- The result for the first connection of the server that `main` starts. -/
theorem no_nullPointer_iff_firstConnection :
    Throughout (State.step mainConfig fun _ _ (_ : Unit) => .returns)
        (fun s => s.crash ≠ some .nullPointer)
        (initialized 2 mainConfig (fun _ => []) fun _ => [])
        (firstConnection 0 ()) ↔
      Every (State.step mainConfig fun _ _ (_ : Unit) => .returns)
        (fun s e => Pops mainConfig s e →
          handedOut s < mainConfig.poolSize - 1)
        (initialized 2 mainConfig (fun _ => []) fun _ => [])
        (firstConnection 0 ()) :=
  no_nullPointer_iff_pool_suffices _ 2 mainConfig _ _ _
    (every_of_forall (succeeds_firstConnection 0 ()) _)

/-- On the server that `main` starts, a client that keeps sending a request with
a response and reads none of them brings the process down. -/
theorem exists_run_nullPointer {α : Type} {handler : Handler α} {answer : α}
    {request : List UInt8} (hresponds : Responds handler 1 request answer)
    (hrequest : request ≠ [])
    (hfits : request.length ≤ HEADER_SIZE + BUFFER_SIZE) :
    ∃ hg bg es s,
      Every (State.step mainConfig handler) (fun _ e => Succeeds e)
          (initialized 2 mainConfig hg bg) es ∧
        run (State.step mainConfig handler) (initialized 2 mainConfig hg bg)
            es = some s ∧
          s.crash = some .nullPointer := by
  obtain ⟨s, hrun, hcrash, hinstalled, hwaiting, hlive, hlength, hposted⟩ :=
    at_firstConnection handler answer
  have hreached : ReachedBySuccess mainConfig handler s :=
    Reachable.of_run (.start ⟨_, _, rfl⟩)
      (every_of_forall (succeeds_firstConnection 0 answer) _) hrun
  obtain ⟨s', hreached', hdry⟩ := exists_nullPointer answer (by decide)
    hresponds hrequest hfits 188 10 _ s hreached
    ⟨hcrash, hinstalled, hwaiting, hlive, rfl⟩ hposted hlength
  obtain ⟨s₀, es, ⟨hg, bg, rfl⟩, hevery, hrun'⟩ := hreached'.exists_run
  exact ⟨hg, bg, es, s', hevery, hrun', hdry⟩

end RankingServer.Network
